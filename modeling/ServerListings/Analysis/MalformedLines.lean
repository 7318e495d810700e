import ServerListings.Interface.ReplySide
import ServerListings.Analysis.HeaderSegmentation

/-!
# Malformed line endings are not reported

`parse_line` tells a malformed line ending from a line that is not complete yet, but the loop
of `process_read` ends in both cases with `NO_REQUEST`. The server then waits for more bytes
of a request that it will never finish. The only `BAD_REQUEST` that a stream with a malformed
line ending can get is the one for its request line, when that line came before.
-/

set_option autoImplicit false

namespace ServerListings.Analysis.MalformedLines

open Lib.CMem Lib.LineReader ServerListings.Model ServerListings.Model.Http ServerListings.Interface
open ServerListings.Analysis.HeaderSegmentation

/-- Whatever files there are, `process_read` has returned `BAD_REQUEST` when it has been
called after a chunk with which a malformed line ending has arrived. -/
def Reported (chunks : List (List UInt8)) : Prop :=
  ∀ (fs : FileSystem) (c : HttpConn) (p : List (List UInt8)), p <+: chunks → Malformed p.flatten →
    ∃ c', c.init.readChunks fs p = .ok (.badRequest, c')

/-! ## In the body -/

/-- Behind the header part `process_read` answers by itself with nothing but `NO_REQUEST`, and
stays behind it. -/
inductive InBody : Next → Prop
  | noRequest {c : HttpConn} (h : c.mCheckState = .checkStateContent) : InBody (.ret .noRequest c)
  | doRequest (c : HttpConn) : InBody (.doRequest c)
  | again {ls : LineStatus} {c : HttpConn} (h : c.mCheckState = .checkStateContent) :
      InBody (.again ls c)

/-- In the body one line leaves the parser in the body. -/
theorem dispatch_inBody {c : HttpConn} (text : Nat) (h : c.mCheckState = .checkStateContent) :
    Ensures (c.dispatch text) InBody := by
  have hcontent : Ensures (c.parseContent text) fun r => r.2.mCheckState = .checkStateContent := by
    apply ensures_bind
    intro bodyEnd
    apply ensures_ite
    · apply ensures_bind
      intro readBuf
      exact ensures_pure h
    · exact ensures_pure h
  unfold HttpConn.dispatch
  rw [h]
  apply hcontent.bind
  rintro ⟨ret, c⟩ hc
  apply ensures_ite
  · exact ensures_pure (.doRequest c)
  · exact ensures_pure (.again hc)

/-- In the body one pass leaves the parser in the body. -/
theorem iterate_inBody {c : HttpConn} (ls : LineStatus) (h : c.mCheckState = .checkStateContent) :
    Ensures (c.iterate ls) InBody := by
  have hnext : Ensures (c.nextLine ls) fun r => r.2.mCheckState = .checkStateContent := by
    apply ensures_ite
    · exact ensures_pure h
    · apply ensures_bind
      intro scan
      exact ensures_pure h
  apply hnext.bind
  rintro ⟨ls, c⟩ hc
  apply ensures_ite
  · exact ensures_pure (.noRequest hc)
  apply ensures_bind
  intro line
  exact dispatch_inBody _ hc

/-- The answer without files, when the header part lies behind. -/
def Waiting (r : HttpCode × HttpConn) : Prop :=
  r.1 ≠ .badRequest ∧ (r.1 = .noRequest → r.2.mCheckState = .checkStateContent)

/-- After `NO_RESOURCE` nothing malformed is reported. -/
theorem waiting_of_noResource {r : HttpCode × HttpConn} (h : r.1 = .noResource) : Waiting r := by
  unfold Waiting
  rw [h]
  simp

/-- In the body the loop reports no malformed line. -/
theorem readLoop_waiting (fuel : Nat) : ∀ (ls : LineStatus) (c : HttpConn),
    c.mCheckState = .checkStateContent → Ensures (c.readLoop noFiles fuel ls) Waiting := by
  induction fuel with
  | zero =>
    intro ls c _
    exact ensures_error _
  | succ fuel ih =>
    intro ls c h
    apply (iterate_inBody ls h).bind
    intro next hnext
    cases hnext with
    | noRequest h => exact ensures_pure ⟨by simp, fun _ => h⟩
    | doRequest c => exact (doRequest_noFiles c).mono fun r => waiting_of_noResource
    | again h => exact ih _ _ h

/-- In the body no chunk is answered with `BAD_REQUEST`. -/
theorem readChunks_waiting (chunks : List (List UInt8)) : ∀ c : HttpConn,
    c.mCheckState = .checkStateContent →
    Ensures (c.readChunks noFiles chunks) fun r => r.1 ≠ .badRequest := by
  induction chunks with
  | nil =>
    intro c _
    exact ensures_pure (by simp)
  | cons data rest ih =>
    intro c h
    have hreceive : Ensures (c.receive data) fun c' => c'.mCheckState = .checkStateContent := by
      apply ensures_bind
      intro readBuf
      exact ensures_pure h
    apply hreceive.bind
    intro c hc
    apply (readLoop_waiting _ _ c hc).bind
    rintro ⟨ret, c⟩ ⟨hbad, hwait⟩
    by_cases hret : ret = .noRequest
    · simp only [if_pos hret]
      exact ih c (hwait hret)
    · simp only [if_neg hret]
      exact ensures_pure hbad

/-! ## The calls of a stream -/

/-- A stream whose first line is not rejected gets no `BAD_REQUEST` where there are no
files. -/
theorem readChunks_ne_badRequest (chunks : List (List UInt8)) : ∀ (c : HttpConn) (s : List UInt8)
    (h : HeadState) (free : Nat), Tracks c s h free → chunks.flatten.length ≤ free →
    (∀ h, readHead (s ++ chunks.flatten) ≠ .error (.reject h)) →
    Ensures (c.readChunks noFiles chunks) fun r => r.1 ≠ .badRequest := by
  induction chunks with
  | nil =>
    intro c s h free _ _ _
    exact ensures_pure (by simp)
  | cons data rest ih =>
    intro c s h free ht hfree hnot
    simp only [List.flatten_cons, List.length_append] at hfree hnot
    obtain ⟨c₁, hreceive, hout⟩ := processRead_head noFiles data ht (by omega)
    rw [HttpConn.readChunks, hreceive, ok_bind]
    -- a call that waits leaves a connection that has read the longer stream
    have hmore : ∀ c₂ h₂, Tracks c₂ (s ++ data) h₂ (free - data.length) →
        Ensures (c₂.readChunks noFiles rest) fun r => r.1 ≠ .badRequest := by
      intro c₂ h₂ ht₂
      refine ih c₂ (s ++ data) h₂ _ ht₂ (by omega) ?_
      simpa using hnot
    cases hread : readHead (s ++ data) with
    | ok st =>
      rw [hread] at hout
      obtain ⟨c₂, hres, ht₂⟩ := hout
      rw [hres, ok_bind]
      exact hmore c₂ _ ht₂
    | error v =>
      rw [hread] at hout
      cases v with
      | stuck h' =>
        obtain ⟨c₂, hres, ht₂⟩ := hout
        rw [hres, ok_bind]
        exact hmore c₂ _ ht₂
      | reject h' =>
        refine absurd ?_ (hnot h')
        rw [← List.append_assoc]
        exact feed_append_error headReader _ hread
      | request h' =>
        obtain ⟨c₂, hres, -, -⟩ := hout
        rw [hres]
        apply (doRequest_noFiles c₂).bind
        rintro ⟨ret, c₃⟩ hret
        obtain rfl : ret = .noResource := hret
        exact ensures_pure (by simp)
      | body h' =>
        obtain ⟨c₂, fuel, hd, w, hres, -, -, hat, -⟩ := hout
        rw [hres]
        apply (readLoop_waiting _ _ c₂ hat.checkState).bind
        rintro ⟨ret, c₃⟩ ⟨hbad, hwait⟩
        by_cases hret : ret = .noRequest
        · simp only [if_pos hret]
          exact readChunks_waiting rest c₃ (hwait hret)
        · simp only [if_neg hret]
          exact ensures_pure hbad

/-- Where a malformed line ending is reported, the first line has been rejected. -/
theorem firstLineRejected_of_reported {chunks : List (List UInt8)} (hmal : Malformed chunks.flatten)
    (hsize : chunks.flatten.length ≤ readBufferSize) (hrep : Reported chunks) :
    FirstLineRejected chunks.flatten := by
  rw [← readHead_reject_iff]
  by_contra hnot
  obtain ⟨c', hbad⟩ := hrep noFiles default chunks (List.prefix_refl _) hmal
  have hne := (readChunks_ne_badRequest chunks _ [] HeadState.init readBufferSize
    (tracks_init default) hsize (by
      rw [List.nil_append]
      exact fun h hread => hnot ⟨h, hread⟩)).result hbad
  exact hne rfl

/-- A malformed line ending before the first empty line is reported in time exactly when the
request line is complete before it and is rejected. -/
theorem reported_iff {chunks : List (List UInt8)} (hmal : Malformed chunks.flatten)
    (hsize : chunks.flatten.length ≤ readBufferSize) :
    Reported chunks ↔ FirstLineRejected chunks.flatten := by
  constructor
  · exact firstLineRejected_of_reported hmal hsize
  · intro hfirst fs c p hp hpmal
    obtain ⟨h, hread⟩ := (readHead_reject_iff _).mpr hfirst
    -- what the reader says at the malformed ending it says of the whole stream
    obtain ⟨rest, rfl⟩ := hp
    rw [List.flatten_append] at hread hsize
    obtain ⟨v, hv⟩ := feed_malformed headReader HeadState.init hpmal
    have hlater := feed_append_error headReader rest.flatten hv
    obtain rfl : v = .reject h := Except.error.inj (hlater.symm.trans hread)
    exact readChunks_rejected fs c (by rw [List.length_append] at hsize; omega) hv

/-- A stream with one CR has no empty line, if it does not start with it. -/
theorem not_hasEmptyLine {p : List UInt8} (hhead : p.head? ≠ some CR) (hcount : p.count CR ≤ 1) :
    ¬ HasEmptyLine p := by
  rintro ⟨u, w, rfl, rfl | ⟨u', rfl⟩⟩
  · exact hhead rfl
  · simp only [List.count_append, List.count_cons_self] at hcount
    omega

/-- A request line without a URL, and a bare LF behind it. -/
theorem reported_iff_noUrl :
    Reported [bytes "GET\r\n", bytes "Host:a\n"] ↔
      FirstLineRejected [bytes "GET\r\n", bytes "Host:a\n"].flatten :=
  reported_iff ⟨bytes "GET\r\nHost:a" ++ [LF], ⟨[], by decide⟩,
    Or.inr ⟨bytes "GET\r\nHost:a", rfl, by decide⟩, not_hasEmptyLine (by decide) (by decide)⟩
    (by decide)

/-- A request of a client that ends its lines with a bare LF is never answered. -/
theorem bareLf_not_reported :
    ¬ ∀ chunks : List (List UInt8), Malformed chunks.flatten →
      chunks.flatten.length ≤ readBufferSize → Reported chunks := by
  intro hall
  have hmal : Malformed [bytes "GET\t/a\tHTTP/1.1\n"].flatten :=
    ⟨bytes "GET\t/a\tHTTP/1.1" ++ [LF], ⟨[], by decide⟩,
      Or.inr ⟨bytes "GET\t/a\tHTTP/1.1", rfl, by decide⟩, not_hasEmptyLine (by decide) (by decide)⟩
  obtain ⟨l, rest, heq, -, -⟩ := firstLineRejected_of_reported hmal (by decide) (hall _ hmal (by decide))
  have hcr : CR ∈ [bytes "GET\t/a\tHTTP/1.1\n"].flatten := by
    rw [heq]
    simp
  exact absurd hcr (by decide)

end ServerListings.Analysis.MalformedLines
