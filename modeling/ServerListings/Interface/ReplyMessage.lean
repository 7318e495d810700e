import Mathlib.Data.Nat.Digits.Defs
import ServerListings.Interface.ReplySide

/-!
# The whole response, byte for byte

Every page and every file header fits into a cleared write buffer, so no failure of
`add_response` is dropped there and `process_write` leaves exactly `replyText` in the buffer.
The one exception is the empty file, for which `process_write` reports a failure.
-/

set_option autoImplicit false

namespace ServerListings.Interface

open Lib.CMem ServerListings.Model.Http

/-! ## Numbers in a response -/

/-- A number is determined by its digits. -/
theorem digits_injective {m n : Nat} (h : digits m = digits n) : m = n := by
  have hback : ∀ k, (digits k).map (fun b => Char.ofNat b.toNat) = Nat.toDigits 10 k := by
    intro k
    rw [digits, List.map_map]
    conv_rhs => rw [← List.map_id (Nat.toDigits 10 k)]
    refine List.map_congr_left fun ch hch => ?_
    have hdigit := Nat.isDigit_of_mem_toDigits (by decide) (by decide) hch
    have hle : ch.toNat ≤ 57 := by
      rw [Char.isDigit, Bool.and_eq_true, decide_eq_true_eq, decide_eq_true_eq] at hdigit
      have := hdigit.2
      rw [UInt32.le_iff_toNat_le] at this
      exact this
    have hnat : ch.toNat.toUInt8.toNat = ch.toNat := by
      simp only [Nat.toUInt8, UInt8.toNat_ofNat']
      omega
    show Char.ofNat ch.toNat.toUInt8.toNat = id ch
    rw [hnat, Char.ofNat_toNat]
    rfl
  have hdigits : Nat.toDigits 10 m = Nat.toDigits 10 n := by rw [← hback, ← hback, h]
  rw [← Nat.ofDigitChars_ten_toDigits (n := m), ← Nat.ofDigitChars_ten_toDigits (n := n), hdigits]

/-- A number below a power of ten has no more digits than that. -/
theorem length_digits_le {n e : Nat} (he : 0 < e) (h : n < 10 ^ e) : (digits n).length ≤ e := by
  rw [digits, List.length_map]
  exact Nat.toDigits_length 10 n e he h

/-- An `int` has at most ten digits and a sign. -/
theorem length_decimal_le {v : Int} (h : intMin ≤ v ∧ v ≤ intMax) : (decimal v).length ≤ 11 := by
  have habs : v.natAbs < 10 ^ 10 := by
    have hmin : intMin = -2147483648 := rfl
    have hmax : intMax = 2147483647 := rfl
    omega
  have hlen := length_digits_le (by decide) habs
  unfold decimal
  split
  · rw [List.length_cons]
    omega
  · omega

/-- A number that is not negative is printed as its digits. -/
theorem decimal_natCast (n : Nat) : decimal (n : Int) = digits n := by
  rw [decimal, if_neg (by omega), Int.natAbs_natCast]

/-! ## The text -/

/-- What `add_status_line` adds. -/
def statusLine (status : Int) (title : List UInt8) : List UInt8 :=
  bytes "HTTP/1.1" ++ bytes " " ++ decimal status ++ bytes " " ++ title ++ bytes "\r\n"

/-- What `add_content_length` adds. -/
def contentLengthLine (contentLen : Int) : List UInt8 :=
  bytes "Content-Length: " ++ decimal contentLen ++ bytes "\r\n"

/-- What `add_linger` adds. -/
def lingerLine (linger : Bool) : List UInt8 :=
  bytes "Connection: " ++ (if linger then bytes "keep-alive" else bytes "close") ++ bytes "\r\n"

/-- What `add_headers` adds. -/
def headerLines (linger : Bool) (contentLen : Int) : List UInt8 :=
  contentLengthLine contentLen ++ lingerLine linger ++ bytes "\r\n"

def pageText (linger : Bool) (status : Int) (title form : List UInt8) : List UInt8 :=
  statusLine status title ++ headerLines linger form.length ++ form

/-- The text in the write buffer when a response is prepared, for a file of `size` bytes. -/
def replyText (linger : Bool) (size : Nat) : HttpCode → List UInt8
  | .internalError => pageText linger 500 error500Title error500Form
  | .badRequest => pageText linger 400 error400Title error400Form
  | .noResource => pageText linger 404 error404Title error404Form
  | .forbiddenRequest => pageText linger 403 error403Title error403Form
  | .fileRequest => statusLine 200 ok200Title ++ headerLines linger (toInt size)
  | .noRequest | .getRequest | .closedConnection => []

/-- The codes that have a case in the `switch` of `process_write`. -/
def Answered (ret : HttpCode) : Prop :=
  ret = .internalError ∨ ret = .badRequest ∨ ret = .noResource ∨ ret = .forbiddenRequest ∨
    ret = .fileRequest

/-- The header lines are short. -/
theorem length_headerLines_le {linger : Bool} {contentLen : Int}
    (h : intMin ≤ contentLen ∧ contentLen ≤ intMax) :
    (headerLines linger contentLen).length ≤ 55 := by
  have hnum := length_decimal_le h
  have hconn : (lingerLine linger).length ≤ 24 := by cases linger <;> decide
  have h16 : (bytes "Content-Length: ").length = 16 := by decide
  have h2 : (bytes "\r\n").length = 2 := by decide
  simp only [headerLines, contentLengthLine, List.length_append, h16, h2]
  omega

/-! ## What the functions leave in the buffer -/

/-- A change of the write buffer is one of the reply. -/
theorem SameReply.onlyReply {c c' : HttpConn} (h : SameReply c c') : OnlyReply c c' := by
  obtain ⟨m, i, rfl⟩ := h
  exact ⟨m, i, c.mIv0, c.mIv1, c.mIvCount, rfl⟩

/-- A change of the write buffer leaves `m_linger` alone. -/
theorem SameReply.linger {c c' : HttpConn} (h : SameReply c c') : c'.mLinger = c.mLinger := by
  obtain ⟨m, i, rfl⟩ := h
  rfl

/-- A change of the write buffer leaves the file's size alone. -/
theorem SameReply.fileStat {c c' : HttpConn} (h : SameReply c c') : c'.mFileStat = c.mFileStat := by
  obtain ⟨m, i, rfl⟩ := h
  rfl

/-- A text that fits is appended. -/
theorem addResponse_fits {c : HttpConn} {s : List UInt8} (text : List UInt8) (h : Written c s)
    (hfits : s.length + text.length < writeBufferSize - 1) :
    ∃ c', c.addResponse text = .ok (true, c') ∧ SameReply c c' ∧ Written c' (s ++ text) := by
  obtain ⟨ok, c', hadd, hsame, hw, hok⟩ := addResponse_written h text
  obtain rfl := hok.mpr hfits
  exact ⟨c', hadd, hsame, hw⟩

/-- The headers are written behind what is there, if they fit. -/
theorem addHeaders_text {c : HttpConn} {s : List UInt8} (contentLen : Int) (h : Written c s)
    (hfits : s.length + (headerLines c.mLinger contentLen).length < writeBufferSize - 1) :
    ∃ c', c.addHeaders contentLen = .ok c' ∧ SameReply c c' ∧
      Written c' (s ++ headerLines c.mLinger contentLen) := by
  have hsum : (headerLines c.mLinger contentLen).length = (contentLengthLine contentLen).length +
      (lingerLine c.mLinger).length + (bytes "\r\n").length := by
    rw [headerLines, List.length_append, List.length_append]
  obtain ⟨c₁, h₁, hsame₁, hw₁⟩ := addResponse_fits (contentLengthLine contentLen) h (by omega)
  obtain ⟨c₂, h₂, hsame₂, hw₂⟩ := addResponse_fits (lingerLine c.mLinger) hw₁ (by
    rw [List.length_append]
    omega)
  obtain ⟨c₃, h₃, hsame₃, hw₃⟩ := addResponse_fits (bytes "\r\n") hw₂ (by
    rw [List.length_append, List.length_append]
    omega)
  have hlength : c.addContentLength contentLen = .ok (true, c₁) := h₁
  have hlinger : c₁.addLinger = .ok (true, c₂) := by
    rw [← hsame₁.linger] at h₂
    exact h₂
  have hblank : c₂.addBlankLine = .ok (true, c₃) := h₃
  refine ⟨c₃, ?_, hsame₁.trans (hsame₂.trans hsame₃), ?_⟩
  · simp only [HttpConn.addHeaders, hlength, hlinger, hblank, ok_bind]
    rfl
  · simpa only [headerLines, List.append_assoc] using hw₃

/-- Every page of the program fits into a cleared write buffer. -/
theorem addPage_text {c : HttpConn} {status : Int} {title form : List UInt8} (h : Written c [])
    (hstatus : (statusLine status title).length ≤ 100) (hform : form.length ≤ 100) :
    ∃ c', c.addPage status title form = .ok (true, c') ∧ SameReply c c' ∧
      Written c' (pageText c.mLinger status title form) := by
  have hlimit : writeBufferSize = 1024 := rfl
  have hheaders : (headerLines c.mLinger form.length).length ≤ 55 := by
    refine length_headerLines_le ?_
    have hmin : intMin = -2147483648 := rfl
    have hmax : intMax = 2147483647 := rfl
    omega
  obtain ⟨c₁, h₁, hsame₁, hw₁⟩ := addResponse_fits (statusLine status title) h (by
    rw [List.length_nil]
    omega)
  rw [List.nil_append] at hw₁
  rw [← hsame₁.linger] at hheaders
  obtain ⟨c₂, h₂, hsame₂, hw₂⟩ := addHeaders_text form.length hw₁ (by omega)
  obtain ⟨c₃, h₃, hsame₃, hw₃⟩ := addResponse_fits form hw₂ (by
    rw [List.length_append]
    omega)
  have hline : c.addStatusLine status title = .ok (true, c₁) := h₁
  have hcontent : c₂.addContent form = .ok (true, c₃) := h₃
  refine ⟨c₃, ?_, hsame₁.trans (hsame₂.trans hsame₃), ?_⟩
  · simp only [HttpConn.addPage, hline, h₂, hcontent, ok_bind]
  · rw [pageText, ← hsame₁.linger]
    exact hw₃

/-- An answer with a page. -/
theorem page_text {c : HttpConn} {status : Int} {title form : List UInt8} (h : Written c [])
    (hstatus : (statusLine status title).length ≤ 100) (hform : form.length ≤ 100) :
    ∃ c', HttpConn.processWrite.page c status title form = .ok (true, c') ∧ OnlyReply c c' ∧
      Written c' (pageText c.mLinger status title form) := by
  obtain ⟨c₁, hpage, ⟨m, i, rfl⟩, hw⟩ := addPage_text h hstatus hform
  refine ⟨_, ?_, ⟨m, i, ⟨.writeBuf, i⟩, c.mIv1, 1, rfl⟩, ⟨hw.writeIdx, hw.text, hw.length⟩⟩
  rw [HttpConn.processWrite.page, hpage, ok_bind]
  rfl

/-- The response that `process_write` prepares, for everything but an empty file. -/
theorem processWrite_text {c : HttpConn} {ret : HttpCode} (h : Written c []) (hret : Answered ret)
    (hfile : ret = .fileRequest → c.mFileStat.stSize ≠ 0) :
    ∃ c', c.processWrite ret = .ok (true, c') ∧ OnlyReply c c' ∧
      Written c' (replyText c.mLinger c.mFileStat.stSize ret) := by
  rcases hret with rfl | rfl | rfl | rfl | rfl
  · exact page_text h (by decide) (by decide)
  · exact page_text h (by decide) (by decide)
  · exact page_text h (by decide) (by decide)
  · exact page_text h (by decide) (by decide)
  · have hlimit : writeBufferSize = 1024 := rfl
    have hlen : (statusLine 200 ok200Title).length = 17 := by decide
    obtain ⟨c₁, h₁, hsame₁, hw₁⟩ := addResponse_fits (statusLine 200 ok200Title) h (by
      rw [List.length_nil]
      omega)
    rw [List.nil_append] at hw₁
    have hheaders : (headerLines c₁.mLinger (toInt c.mFileStat.stSize)).length ≤ 55 :=
      length_headerLines_le (toInt_bounds c.mFileStat.stSize)
    obtain ⟨c₂, h₂, hsame₂, hw₂⟩ := addHeaders_text (toInt c.mFileStat.stSize) hw₁ (by omega)
    have hline : c.addStatusLine 200 ok200Title = .ok (true, c₁) := h₁
    rw [HttpConn.processWrite, if_pos (hfile rfl), hline, ok_bind]
    simp only [hsame₁.fileStat, h₂, ok_bind]
    rw [hsame₁.linger] at hw₂
    obtain ⟨m, i, rfl⟩ := hsame₁.trans hsame₂
    exact ⟨_, rfl, ⟨m, i, _, _, 2, rfl⟩, ⟨hw₂.writeIdx, hw₂.text, hw₂.length⟩⟩

/-- The case of an empty file falls through to the default case. -/
theorem processWrite_empty {c : HttpConn} (h : Written c []) (hsize : c.mFileStat.stSize = 0) :
    ∃ c', c.processWrite .fileRequest = .ok (false, c') ∧ OnlyReply c c' := by
  have hstatus : (statusLine 200 ok200Title).length ≤ 100 := by decide
  have hform : okString.length ≤ 100 := by decide
  obtain ⟨c₁, hpage, hsame, -⟩ := addPage_text h hstatus hform
  refine ⟨c₁, ?_, hsame.onlyReply⟩
  rw [HttpConn.processWrite, if_neg (not_not_intro hsize), hpage, ok_bind]
  rfl

/-- `process_read` returns `NO_REQUEST` or a code that has a case in `process_write`. -/
theorem processRead_answered (fs : FileSystem) (c : HttpConn) :
    Ensures (c.processRead fs) fun r => r.1 = .noRequest ∨ Answered r.1 := by
  refine (processRead_end fs c).mono fun r hr => ?_
  unfold Answered
  cases hr with
  | noRequest h => exact Or.inl rfl
  | badRequest h => simp
  | doRequest h hdo => cases (doRequest_sought fs _).result hdo <;> simp

end ServerListings.Interface
