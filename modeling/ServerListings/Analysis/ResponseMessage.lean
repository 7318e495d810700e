import ServerListings.Interface.ReplyMessage
import ServerListings.Analysis.ResponseOnce

/-!
# Which responses are HTTP messages

A prepared response is a status line, the lines `Content-Length` and `Connection`, an empty
line and a body of the announced length, but for two kinds of files. The page for an empty
file is prepared, but its case falls through to the default case, which reports a failure.
The size of a file from 2^31 bytes on does not survive the `int` that `add_headers` takes, so
the announced length is another one. All this takes the calls of `add_headers` to come back, although
the function has no `return` for its `bool`.
-/

set_option autoImplicit false

namespace ServerListings.Analysis.ResponseMessage

open Lib.CMem Lib.LineReader ServerListings.Model ServerListings.Model.Http ServerListings.Interface
open ServerListings.Analysis.ResponseOnce

/-- A status line: the version, a code of three digits, and a reason on the same line. -/
def IsStatusLine (line : List UInt8) : Prop :=
  ∃ (status : Nat) (reason : List UInt8), 100 ≤ status ∧ status ≤ 999 ∧ CR ∉ reason ∧
    LF ∉ reason ∧ line = bytes "HTTP/1.1" ++ bytes " " ++ digits status ++ bytes " " ++ reason ++
      bytes "\r\n"

/-- The header lines for a body of `n` bytes, with the empty line. -/
def messageHeaders (linger : Bool) (n : Nat) : List UInt8 :=
  (bytes "Content-Length: " ++ digits n ++ bytes "\r\n") ++
    (bytes "Connection: " ++ (if linger then bytes "keep-alive" else bytes "close") ++
      bytes "\r\n") ++ bytes "\r\n"

/-- A message that announces the length of its body. -/
def IsMessage (linger : Bool) (body msg : List UInt8) : Prop :=
  ∃ line, IsStatusLine line ∧ msg = line ++ messageHeaders linger body.length ++ body

/-- The response to `ret` is prepared and is a message, with the mapped file as its body when
a file that is not empty was asked for. -/
def WellFormedReply (mapped : Int → List UInt8) (c : HttpConn) (ret : HttpCode) : Prop :=
  ∃ c' body, c.processWrite ret = .ok (true, c') ∧ IsMessage c.mLinger body (c'.iovBytes mapped) ∧
    (ret = .fileRequest → c.mFileStat.stSize ≠ 0 → body = mapped c.mFileAddress)

/-! ## The announced length -/

/-- The status line that is written is a status line. -/
theorem isStatusLine_statusLine (status : Nat) (title : List UInt8) (hlo : 100 ≤ status)
    (hhi : status ≤ 999) (hCR : CR ∉ title) (hLF : LF ∉ title) :
    IsStatusLine (statusLine status title) :=
  ⟨status, title, hlo, hhi, hCR, hLF, by rw [statusLine, decimal_natCast]⟩

/-- The header lines for a length that is not negative. -/
theorem headerLines_natCast (linger : Bool) (n : Nat) :
    headerLines linger n = messageHeaders linger n := by
  rw [headerLines, contentLengthLine, decimal_natCast]
  rfl

/-- A page announces its own length. -/
theorem isMessage_page (linger : Bool) (status : Nat) (title form : List UInt8)
    (hlo : 100 ≤ status) (hhi : status ≤ 999) (hCR : CR ∉ title) (hLF : LF ∉ title) :
    IsMessage linger form (pageText linger status title form) :=
  ⟨_, isStatusLine_statusLine status title hlo hhi hCR hLF, by rw [pageText, headerLines_natCast]⟩

/-- An `int` holds the size of a file of less than 2^31 bytes. -/
theorem toInt_size {n : Nat} (h : n < 2 ^ 31) : toInt n = n := by
  rw [toInt, Int.bmod_eq_of_le]
  · omega
  · omega

/-- The texts before the first byte `b` are the same, and those behind it. -/
theorem append_cons_inj {b : UInt8} {s s' t t' : List UInt8} (hs : b ∉ s) (hs' : b ∉ s')
    (h : s ++ b :: t = s' ++ b :: t') : s = s' ∧ t = t' := by
  have hleft : breakAt [b] (s ++ b :: t) = some (s, t) := breakAt_append_cons
    (fun x hx h0 => hs (List.mem_singleton.mp h0 ▸ hx)) (List.mem_singleton_self b)
  have hright : breakAt [b] (s' ++ b :: t') = some (s', t') := breakAt_append_cons
    (fun x hx h0 => hs' (List.mem_singleton.mp h0 ▸ hx)) (List.mem_singleton_self b)
  rw [h, hright] at hleft
  obtain ⟨h₁, h₂⟩ := Prod.mk.inj (Option.some.inj hleft)
  exact ⟨h₁.symm, h₂.symm⟩

/-- A decimal has no CR. -/
theorem cr_notMem_digits (n : Nat) : CR ∉ digits n := by
  rw [← decimal_natCast]
  exact notMem_decimal (by decide) (by decide) _

/-- A number that is printed as the digits of `n` is `n`. -/
theorem eq_of_decimal {v : Int} {n : Nat} (h : decimal v = digits n) : v = n := by
  by_cases hv : v < 0
  · rw [decimal, if_pos hv] at h
    have hsign : (45 : UInt8) ∈ digits n := h ▸ List.mem_cons_self
    exact absurd (isDigit_of_mem_digits hsign) (by decide)
  · rw [decimal, if_neg hv] at h
    have := digits_injective h
    omega

/-- The announced length can be read off a message. -/
theorem announced_length {linger : Bool} {v : Int} {body : List UInt8}
    (h : IsMessage linger body (statusLine 200 ok200Title ++ headerLines linger v ++ body)) :
    v = body.length := by
  obtain ⟨line, ⟨status, reason, -, -, hCR, -, rfl⟩, heq⟩ := h
  have hcrlf : bytes "\r\n" = [CR, LF] := by decide
  have hlabel : CR ∉ bytes "HTTP/1.1" ++ bytes " " := by decide
  have hspace : CR ∉ bytes " " := by decide
  simp only [statusLine, headerLines, contentLengthLine, lingerLine, messageHeaders, hcrlf,
    List.append_assoc, List.cons_append, List.nil_append] at heq
  have hleft : CR ∉ bytes "HTTP/1.1" ++ (bytes " " ++ (decimal 200 ++ (bytes " " ++ ok200Title))) := by
    decide
  have hright : CR ∉ bytes "HTTP/1.1" ++ (bytes " " ++ (digits status ++ (bytes " " ++ reason))) := by
    simp only [List.mem_append, not_or] at hlabel ⊢
    exact ⟨hlabel.1, hlabel.2, cr_notMem_digits status, hspace, hCR⟩
  have hline := append_cons_inj hleft hright (by simpa only [List.append_assoc] using heq)
  have hrest := List.append_cancel_left (List.cons.inj hline.2).2
  have hnum := append_cons_inj (notMem_decimal (by decide) (by decide) v) (cr_notMem_digits _) hrest
  exact eq_of_decimal hnum.1

/-! ## The responses -/

section Reply

variable {mapped : Int → List UInt8} {c c' : HttpConn} {ret : HttpCode}

/-- What `m_iv` designates: the text, and the file behind it. -/
theorem iovBytes_text (h : Written c []) (hwrite : c.processWrite ret = .ok (true, c'))
    (honly : OnlyReply c c') {s : List UInt8} (htext : Written c' s)
    (hmap : ret = .fileRequest → (mapped c.mFileAddress).length = c.mFileStat.stSize) :
    c'.iovBytes mapped = s ++ if ret = .fileRequest then mapped c.mFileAddress else [] := by
  have hp := processWrite_prepared h hwrite
  obtain ⟨m, i, iv₀, iv₁, n, rfl⟩ := honly
  rw [iovBytes_prepared hp hmap, response, htext.header]

/-- A reply with an error page is well formed. -/
theorem wellFormedReply_page {status : Nat} {title form : List UInt8} (h : Written c [])
    (hret : Answered ret) (hfile : ret ≠ .fileRequest)
    (htext : replyText c.mLinger c.mFileStat.stSize ret = pageText c.mLinger status title form)
    (hlo : 100 ≤ status) (hhi : status ≤ 999) (hCR : CR ∉ title) (hLF : LF ∉ title) :
    WellFormedReply mapped c ret := by
  obtain ⟨c', hwrite, honly, hw⟩ := processWrite_text h hret (fun h0 => absurd h0 hfile)
  refine ⟨c', form, hwrite, ?_, fun h0 => absurd h0 hfile⟩
  rw [iovBytes_text h hwrite honly hw (fun h0 => absurd h0 hfile), if_neg hfile, List.append_nil,
    htext]
  exact isMessage_page _ _ _ _ hlo hhi hCR hLF

/-- The response with a file is a message exactly where the size is an `int`. -/
theorem wellFormedReply_file (h : Written c []) (hsize : c.mFileStat.stSize ≠ 0)
    (hmap : (mapped c.mFileAddress).length = c.mFileStat.stSize) :
    WellFormedReply mapped c .fileRequest ↔ c.mFileStat.stSize < 2 ^ 31 := by
  have hret : Answered .fileRequest := by simp [Answered]
  obtain ⟨c', hwrite, honly, hw⟩ := processWrite_text h hret (fun _ => hsize)
  have hbytes := iovBytes_text h hwrite honly hw (fun _ => hmap)
  rw [if_pos rfl, replyText] at hbytes
  constructor
  · rintro ⟨c'', body, hwrite', hmsg, hbody⟩
    obtain rfl := (results_unique hwrite hwrite').2
    obtain rfl := hbody rfl hsize
    rw [hbytes] at hmsg
    have hv := announced_length hmsg
    rw [hmap] at hv
    have hmax := (toInt_bounds c.mFileStat.stSize).2
    have hlimit : intMax = 2 ^ 31 - 1 := rfl
    omega
  · intro hsmall
    refine ⟨c', _, hwrite, ?_, fun _ _ => rfl⟩
    rw [hbytes, toInt_size hsmall, headerLines_natCast, ← hmap]
    exact ⟨_, isStatusLine_statusLine 200 ok200Title (by decide) (by decide) (by decide) (by decide),
      rfl⟩

end Reply

/-- If the calls of `add_headers` come back, the response to every code that `process_read` can return
with is a message, with two exceptions: an empty file and a file of 2^31 bytes or more. -/
theorem wellFormedReply_iff (mapped : Int → List UInt8) {c : HttpConn} {ret : HttpCode}
    (hret : Answered ret) (hidx : c.mWriteIdx = 0) (hbuf : c.mWriteBuf.length = writeBufferSize)
    (hmap : ret = .fileRequest → c.mFileStat.stSize ≠ 0 →
      (mapped c.mFileAddress).length = c.mFileStat.stSize) :
    WellFormedReply mapped c ret ↔
      (ret = .fileRequest → 0 < c.mFileStat.stSize ∧ c.mFileStat.stSize < 2 ^ 31) := by
  have h : Written c [] := ⟨hidx, rfl, hbuf⟩
  by_cases hfile : ret = .fileRequest
  · subst hfile
    by_cases hsize : c.mFileStat.stSize = 0
    · constructor
      · rintro ⟨c', body, hwrite, -⟩
        obtain ⟨c'', hempty, -⟩ := processWrite_empty h hsize
        exact absurd (results_unique hempty hwrite).1 (by decide)
      · intro hpos
        exact absurd hsize (Nat.pos_iff_ne_zero.mp (hpos rfl).1)
    · rw [wellFormedReply_file h hsize (hmap rfl hsize)]
      constructor
      · exact fun hsmall _ => ⟨Nat.pos_of_ne_zero hsize, hsmall⟩
      · exact fun hboth => (hboth rfl).2
  · refine iff_of_true ?_ (fun h0 => absurd h0 hfile)
    have hcases := hret
    rcases hcases with rfl | rfl | rfl | rfl | rfl
    · exact wellFormedReply_page h hret hfile rfl (by decide) (by decide) (by decide) (by decide)
    · exact wellFormedReply_page h hret hfile rfl (by decide) (by decide) (by decide) (by decide)
    · exact wellFormedReply_page h hret hfile rfl (by decide) (by decide) (by decide) (by decide)
    · exact wellFormedReply_page h hret hfile rfl (by decide) (by decide) (by decide) (by decide)
    · exact absurd rfl hfile

/-- A file of one byte. -/
theorem wellFormedReply_oneByte : WellFormedReply oneByteMemory oneByteFile .fileRequest :=
  (wellFormedReply_iff oneByteMemory (by simp [Answered]) rfl oneByteFile_clear.length
    (fun _ _ => rfl)).mpr fun _ => ⟨by decide, by decide⟩

/-- A connection that has found an empty file, which `mmap` does not map. -/
def emptyFile : HttpConn :=
  { (default : HttpConn).init with
    mFileAddress := -1
    mFileStat := ⟨0o100644, 0⟩ }

/-- The write buffer of `emptyFile` is clear. -/
theorem emptyFile_clear : Written emptyFile [] := ⟨rfl, rfl, by simp [emptyFile, HttpConn.init]⟩

/-- The page for an empty file is not sent. -/
theorem emptyFile_no_reply :
    ¬ ∀ (mapped : Int → List UInt8) (c : HttpConn) (ret : HttpCode), Answered ret →
      c.mWriteIdx = 0 → c.mWriteBuf.length = writeBufferSize →
      (ret = .fileRequest → c.mFileStat.stSize ≠ 0 →
        (mapped c.mFileAddress).length = c.mFileStat.stSize) → WellFormedReply mapped c ret := by
  intro hall
  obtain ⟨c', body, hwrite, -⟩ := hall (fun _ => []) emptyFile .fileRequest (by simp [Answered]) rfl
    emptyFile_clear.length (fun _ h0 => absurd rfl h0)
  obtain ⟨c'', hempty, -⟩ := processWrite_empty emptyFile_clear rfl
  exact absurd (results_unique hempty hwrite).1 (by decide)

end ServerListings.Analysis.ResponseMessage
