import ServerListings.Interface.ReplySide
import ServerListings.Analysis.HeaderSegmentation

/-!
# The request of the load generator

The load generator separates the parts of its request line with single spaces.
`parse_request_line` accepts a space behind the method, but looks for a tab behind the URL,
finds none and rejects the line. This is so for every host, path and segmentation.
-/

set_option autoImplicit false

namespace ServerListings.Analysis.ClientRequest

open Lib.CMem Lib.LineReader ServerListings.Model ServerListings.Model.Http ServerListings.Interface
open ServerListings.Analysis.HeaderSegmentation

/-- The request line for a host and a path. -/
def requestLineText (host path : List UInt8) : List UInt8 :=
  bytes "GET http://" ++ host ++ path ++ bytes " HTTP/1.1"

/-- `request` of the load generator for a host and a path, without the bytes it sends behind
the empty line. -/
def requestText (host path : List UInt8) : List UInt8 :=
  requestLineText host path ++ bytes "\r\n" ++ bytes "Connection: keep-alive\r\n\r\n"

/-- A host and a path that a request can be made for. -/
structure Requestable (host path : List UInt8) : Prop where
  hostPlain : ∀ b ∈ host, b ∉ [SP, TAB, CR, LF, 0, SLASH]
  pathPlain : ∀ b ∈ path, b ∉ [SP, TAB, CR, LF, 0]
  slash : path.head? = some SLASH

/-- Whatever files there are, the calls of `process_read` end in `do_request`, with `m_url`
at the path and `m_linger` set. -/
def Accepts (c : HttpConn) (chunks : List (List UInt8)) (path : List UInt8) : Prop :=
  ∃ c' : HttpConn, (∀ fs, c.init.readChunks fs chunks = c'.doRequest fs) ∧
    strAt c'.mReadBuf c'.mUrl = .ok (some path) ∧ c'.mLinger = true

section Request

variable {host path : List UInt8} (h : Requestable host path)

include h

/-- The request line is one line, without tabs and NULs. -/
theorem requestLineText_plain : ∀ b ∈ requestLineText host path, b ∉ [TAB, CR, LF, 0] := by
  have hget : ∀ b ∈ bytes "GET http://", b ∉ [TAB, CR, LF, 0] := by decide +kernel
  have hversion : ∀ b ∈ bytes " HTTP/1.1", b ∉ [TAB, CR, LF, 0] := by decide +kernel
  intro b hb
  simp only [requestLineText, List.mem_append] at hb
  obtain ((hb | hb) | hb) | hb := hb
  · exact hget b hb
  · have := h.hostPlain b hb
    simp only [List.mem_cons, not_or] at this ⊢
    exact ⟨this.2.1, this.2.2.1, this.2.2.2.1, this.2.2.2.2.1, List.not_mem_nil⟩
  · have := h.pathPlain b hb
    simp only [List.mem_cons, not_or] at this ⊢
    exact this.2
  · exact hversion b hb

/-- The request line has no line end in it. -/
theorem requestLineText_clean : Clean (requestLineText host path) := by
  intro b hb
  have := requestLineText_plain h b hb
  simp only [List.mem_cons, not_or] at this
  exact ⟨this.2.1, this.2.2.1⟩

/-- The version is looked for behind a tab. -/
theorem requestLineText_rejected :
    (readRequestLine [SP, TAB] (requestLineText host path)).accepted = false := by
  have hsplit : requestLineText host path =
      bytes "GET" ++ SP :: (bytes "http://" ++ (host ++ (path ++ bytes " HTTP/1.1"))) := by
    simp only [requestLineText, List.append_assoc]
    rfl
  have hmethod : breakAt [SP, TAB] (bytes "GET" ++ SP ::
      (bytes "http://" ++ (host ++ (path ++ bytes " HTTP/1.1")))) =
      some (bytes "GET", bytes "http://" ++ (host ++ (path ++ bytes " HTTP/1.1"))) :=
    breakAt_append_cons (by decide +kernel) (by decide +kernel)
  have htabs : ∀ b ∈ bytes "http://" ++ (host ++ (path ++ bytes " HTTP/1.1")), b ∉ [TAB] := by
    intro b hb hmem
    refine requestLineText_plain h b ?_ (List.mem_cons.mpr (Or.inl (List.mem_singleton.mp hmem)))
    rw [hsplit]
    exact List.mem_append_right _ (List.mem_cons_of_mem _ hb)
  rw [readRequestLine, hsplit, hmethod]
  simp only [show eqIgnoreCase (bytes "GET") (bytes "GET") = true from rfl, Bool.not_true,
    Bool.false_eq_true, if_false]
  rw [readTarget]
  have hfront : (bytes "http://" ++ (host ++ (path ++ bytes " HTTP/1.1"))).dropWhile (· ∈ [TAB]) =
      bytes "http://" ++ (host ++ (path ++ bytes " HTTP/1.1")) := rfl
  simp only [hfront]
  obtain ⟨hnone, -⟩ | ⟨a, d, r, -, heq, hd, -⟩ := breakAt_cases [TAB]
    (bytes "http://" ++ (host ++ (path ++ bytes " HTTP/1.1")))
  · rw [hnone]
  · exact absurd hd (htabs d (heq ▸ List.mem_append_right _ List.mem_cons_self))

/-- The first line that the client sends is rejected. -/
theorem requestText_rejected : FirstLineRejected (requestText host path) := by
  have h0 : (0 : UInt8) ∉ requestLineText host path := fun h0 =>
    requestLineText_plain h 0 h0 (by decide)
  refine ⟨requestLineText host path, bytes "Connection: keep-alive\r\n\r\n", ?_,
    requestLineText_clean h, ?_⟩
  · rw [requestText, List.append_assoc]
    rfl
  · rw [cstr_of_notMem h0, requestLineText_rejected h]

/-- The calls of `process_read` for a request of the load generator return `BAD_REQUEST`. -/
theorem readChunks_request (c : HttpConn) {chunks : List (List UInt8)}
    (hsize : (requestText host path).length < readBufferSize)
    (hsplit : chunks.flatten = requestText host path) (fs : FileSystem) :
    ∃ c', c.init.readChunks fs chunks = .ok (.badRequest, c') := by
  obtain ⟨hs, hread⟩ := (readHead_reject_iff _).mpr (requestText_rejected h)
  rw [← hsplit] at hread hsize
  exact readChunks_rejected fs c (Nat.le_of_lt hsize) hread

end Request

/-- No split of the client's request is accepted. -/
theorem not_accepts {host path : List UInt8} (h : Requestable host path) (c : HttpConn)
    {chunks : List (List UInt8)} (hsize : (requestText host path).length < readBufferSize)
    (hsplit : chunks.flatten = requestText host path) : ¬ Accepts c chunks path := by
  rintro ⟨c', hreach, -, -⟩
  obtain ⟨c'', hbad⟩ := readChunks_request h c hsize hsplit noFiles
  rw [hreach] at hbad
  exact absurd ((doRequest_noFiles c').result hbad) (by simp)

/-- No request of the load generator is accepted: for every host and path, and for every way
of cutting the stream, `process_read` returns `BAD_REQUEST` before it gets to `do_request`. -/
theorem request_rejected (c : HttpConn) {host path : List UInt8} (h : Requestable host path)
    (hsize : (requestText host path).length < readBufferSize) {chunks : List (List UInt8)}
    (hsplit : chunks.flatten = requestText host path) :
    ¬ Accepts c chunks path ∧ ∀ fs, ∃ c', c.init.readChunks fs chunks = .ok (.badRequest, c') :=
  ⟨not_accepts h c hsize hsplit, readChunks_request h c hsize hsplit⟩

/-- The request that the load generator really sends. -/
theorem index_requestable : Requestable (bytes "localhost") (bytes "/index.html") :=
  ⟨by decide +kernel, by decide +kernel, by decide +kernel⟩

/-- The client's request for `/index.html` is answered with `BAD_REQUEST`. -/
theorem request_rejected_index :
    ¬ Accepts default [requestText (bytes "localhost") (bytes "/index.html")] (bytes "/index.html") ∧
      ∀ fs, ∃ c', (default : HttpConn).init.readChunks fs
        [requestText (bytes "localhost") (bytes "/index.html")] = .ok (.badRequest, c') :=
  request_rejected default index_requestable (by decide) (List.flatten_singleton)

/-- It is not so that the server accepts what the client sends. -/
theorem request_not_accepted :
    ¬ ∀ (c : HttpConn) (host path : List UInt8) (chunks : List (List UInt8)),
      Requestable host path → (requestText host path).length < readBufferSize →
      chunks.flatten = requestText host path → Accepts c chunks path := by
  intro hall
  exact not_accepts index_requestable default (by decide) (List.flatten_singleton)
    (hall default (bytes "localhost") (bytes "/index.html")
      [requestText (bytes "localhost") (bytes "/index.html")] index_requestable (by decide)
      List.flatten_singleton)

end ServerListings.Analysis.ClientRequest
