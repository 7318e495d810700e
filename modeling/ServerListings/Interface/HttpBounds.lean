import ServerListings.Interface.SharedBounds
import ServerListings.Model.HttpParse

/-!
# The member functions of `http_conn` stay inside their buffers

`Bounded` is the invariant of the parser: the indices are in order and inside the read
buffer, both buffers keep their terminator, and there is a URL once a request line has been
accepted. Every member function keeps it. The only one that can fault on a bounded
connection is `parse_content`, and `ContentFits` says exactly when it does not.
-/

set_option autoImplicit false

namespace ServerListings.Interface

open Lib.CMem Lib.LineReader ServerListings.Model ServerListings.Model.Http

structure Bounded (c : HttpConn) : Prop where
  readBuf : Terminated (readBufferSize - 1) c.mReadBuf
  realFile : Terminated (filenameLen - 1) c.mRealFile
  start_le : c.mStartLine ≤ c.mCheckedIdx
  checked_le : c.mCheckedIdx ≤ c.mReadIdx
  read_le : c.mReadIdx ≤ readBufferSize - 1
  url : ∀ p, c.mUrl = some p → p ≤ readBufferSize - 1
  hasUrl : c.mCheckState ≠ .checkStateRequestline → ∃ p, c.mUrl = some p
  contentLength : intMin ≤ c.mContentLength ∧ c.mContentLength ≤ intMax

/-- The indices of the read buffer are left alone. -/
structure KeepsIdx (c c' : HttpConn) : Prop where
  readIdx : c'.mReadIdx = c.mReadIdx
  checkedIdx : c'.mCheckedIdx = c.mCheckedIdx
  startLine : c'.mStartLine = c.mStartLine

/-- After `init` the indices are in bounds. -/
theorem bounded_init (c : HttpConn) : Bounded c.init :=
  ⟨terminated_zeros _, terminated_zeros _, Nat.le_refl _, Nat.le_refl _, Nat.zero_le _,
    fun _ hp => (by cases hp), fun h => absurd rfl h,
    ⟨by simp [HttpConn.init, intMin], by simp [HttpConn.init, intMax]⟩⟩

/-- A chunk that leaves the last byte of the read buffer free. -/
theorem receive_bounds {c : HttpConn} (data : List UInt8) (h : Bounded c)
    (hfit : c.mReadIdx + data.length < readBufferSize) :
    ∃ m, c.receive data = .ok { c with mReadBuf := m, mReadIdx := c.mReadIdx + data.length } ∧
      Bounded { c with mReadBuf := m, mReadIdx := c.mReadIdx + data.length } := by
  obtain ⟨m, hm, hterm⟩ := h.readBuf.copyIn c.mReadIdx data (by omega)
  refine ⟨m, HttpConn.receive_of_copyIn hm, hterm, h.realFile, h.start_le, ?_, ?_, h.url,
    h.hasUrl, h.contentLength⟩
  · exact Nat.le_trans h.checked_le (Nat.le_add_right _ _)
  · simp only
    omega

/-- `parse_line` advances the checked index, and changes nothing else but the buffer. -/
theorem parseLine_bounds {c : HttpConn} (h : Bounded c) :
    ∃ status buf checked,
      c.parseLine = .ok (status, { c with mReadBuf := buf, mCheckedIdx := checked }) ∧
      Bounded { c with mReadBuf := buf, mCheckedIdx := checked } ∧ c.mCheckedIdx ≤ checked ∧
      (status = .lineOk → c.mCheckedIdx < checked) := by
  obtain ⟨scan, hscan, hb⟩ := lineScan_bounds h.readBuf h.checked_le h.read_le
  refine ⟨scan.status, scan.buf, scan.checked, by rw [HttpConn.parseLine, hscan]; rfl, ?_,
    hb.checked_le, hb.line⟩
  exact ⟨hb.buf, h.realFile, Nat.le_trans h.start_le hb.checked_le, hb.le_read, h.read_le, h.url,
    h.hasUrl, h.contentLength⟩

/-- A request line. An accepted one has a URL. -/
theorem parseRequestLine_bounds {c : HttpConn} {text : Nat} (h : Bounded c)
    (htext : text ≤ readBufferSize - 1) (hstate : c.mCheckState = .checkStateRequestline) :
    ∃ ret c', c.parseRequestLine text = .ok (ret, c') ∧ Bounded c' ∧ KeepsIdx c c' := by
  obtain ⟨res, hres, hb⟩ := requestLine_bounds [SP, TAB] c.mVersion h.readBuf htext
  unfold HttpConn.parseRequestLine
  rw [hres, ok_bind]
  cases hacc : res.accepted with
  | true =>
    simp only [if_true]
    exact ⟨_, _, rfl, ⟨hb.buf, h.realFile, h.start_le, h.checked_le, h.read_le, hb.url,
      fun _ => hb.accepted hacc, h.contentLength⟩, ⟨rfl, rfl, rfl⟩⟩
  | false =>
    simp only [Bool.false_eq_true, if_false]
    exact ⟨_, _, rfl, ⟨hb.buf, h.realFile, h.start_le, h.checked_le, h.read_le, hb.url,
      fun hne => absurd hstate hne, h.contentLength⟩, ⟨rfl, rfl, rfl⟩⟩

/-- A header line. The blank one ends a header part that has a URL. -/
theorem parseHeaders_bounds {c : HttpConn} {text : Nat} (h : Bounded c)
    (htext : text ≤ readBufferSize - 1) (hstate : c.mCheckState ≠ .checkStateRequestline) :
    ∃ ret c', c.parseHeaders text = .ok (ret, c') ∧ Bounded c' ∧ KeepsIdx c c' ∧
      c'.mCheckState ≠ .checkStateRequestline := by
  obtain ⟨b, hb⟩ := h.readBuf.load htext
  obtain ⟨connection, hconnection, hclen⟩ := h.readBuf.strncasecmp (bytes "Connection:") htext
  obtain ⟨length, hlength, hllen⟩ := h.readBuf.strncasecmp (bytes "Content-Length:") htext
  obtain ⟨host, hhost, hhlen⟩ := h.readBuf.strncasecmp (bytes "Host:") htext
  unfold HttpConn.parseHeaders
  rw [hb, ok_bind]
  by_cases hzero : b = 0
  · rw [if_pos hzero]
    split
    · exact ⟨_, _, rfl, ⟨h.readBuf, h.realFile, h.start_le, h.checked_le, h.read_le, h.url,
        fun _ => h.hasUrl hstate, h.contentLength⟩, ⟨rfl, rfl, rfl⟩, by simp⟩
    · exact ⟨_, _, rfl, h, ⟨rfl, rfl, rfl⟩, hstate⟩
  rw [if_neg hzero, hconnection, ok_bind]
  cases connection with
  | true =>
    have := hclen rfl
    obtain ⟨k, hk, hle⟩ := h.readBuf.strspn (p := text + 11) [TAB] (by
      have : (bytes "Connection:").length = 11 := by decide
      omega)
    obtain ⟨keep, hkeep⟩ := h.readBuf.strcasecmp (bytes "keep-alive") hle
    simp only [if_true, hk, ok_bind, hkeep]
    split
    · exact ⟨_, _, rfl, ⟨h.readBuf, h.realFile, h.start_le, h.checked_le, h.read_le, h.url,
        h.hasUrl, h.contentLength⟩, ⟨rfl, rfl, rfl⟩, hstate⟩
    · exact ⟨_, _, rfl, h, ⟨rfl, rfl, rfl⟩, hstate⟩
  | false =>
    simp only [Bool.false_eq_true, if_false]
    rw [hlength, ok_bind]
    cases length with
    | true =>
      have := hllen rfl
      obtain ⟨k, hk, hle⟩ := h.readBuf.strspn (p := text + 15) [TAB] (by
        have : (bytes "Content-Length:").length = 15 := by decide
        omega)
      obtain ⟨number, hnumber, -⟩ := h.readBuf.fetch hle
      simp only [if_true, hk, ok_bind, hnumber]
      exact ⟨_, _, rfl, ⟨h.readBuf, h.realFile, h.start_le, h.checked_le, h.read_le, h.url,
        h.hasUrl, toInt_bounds _⟩, ⟨rfl, rfl, rfl⟩, hstate⟩
    | false =>
      simp only [Bool.false_eq_true, if_false]
      rw [hhost, ok_bind]
      cases host with
      | true =>
        have := hhlen rfl
        obtain ⟨k, hk, hle⟩ := h.readBuf.strspn (p := text + 5) [TAB] (by
          have : (bytes "Host:").length = 5 := by decide
          omega)
        simp only [if_true, hk, ok_bind]
        exact ⟨_, _, rfl, ⟨h.readBuf, h.realFile, h.start_le, h.checked_le, h.read_le, h.url,
          h.hasUrl, h.contentLength⟩, ⟨rfl, rfl, rfl⟩, hstate⟩
      | false =>
        obtain ⟨line, hline, -⟩ := h.readBuf.fetch htext
        simp only [Bool.false_eq_true, if_false, hline, ok_bind]
        exact ⟨_, _, rfl, h, ⟨rfl, rfl, rfl⟩, hstate⟩

/-- The subscript that `parse_content` computes for the line at `text` is one of the buffer,
and the sum it compares with the read index is an `int`. -/
def ContentFits (c : HttpConn) (text : Nat) : Prop :=
  0 ≤ (text : Int) + c.mContentLength ∧ c.mContentLength + c.mCheckedIdx ≤ intMax

/-- `parse_content` stays in the buffer where its terminator fits. -/
theorem parseContent_bounds {c : HttpConn} {text : Nat} (h : Bounded c)
    (htext : text ≤ c.mCheckedIdx) (hfits : ContentFits c text) :
    ∃ ret buf, c.parseContent text = .ok (ret, { c with mReadBuf := buf }) ∧
      Bounded { c with mReadBuf := buf } := by
  have hsum : addInt c.mContentLength c.mCheckedIdx = .ok (c.mContentLength + c.mCheckedIdx) := by
    rw [addInt_eq_ok]
    have := h.contentLength.1
    exact ⟨⟨by omega, hfits.2⟩, rfl⟩
  unfold HttpConn.parseContent
  rw [hsum, ok_bind]
  by_cases hdone : (c.mReadIdx : Int) ≥ c.mContentLength + c.mCheckedIdx
  · have hlt : (text : Int) + c.mContentLength < (c.mReadBuf.length : Int) := by
      have := h.read_le
      rw [h.readBuf.length]
      omega
    rw [if_pos hdone, storeInt_of_lt 0 hfits.1 hlt]
    exact ⟨_, _, rfl, h.readBuf.set _, h.realFile, h.start_le, h.checked_le, h.read_le, h.url,
      h.hasUrl, h.contentLength⟩
  · rw [if_neg hdone]
    exact ⟨_, c.mReadBuf, rfl, h⟩

/-- Where the subscript or the sum does not fit, `parse_content` faults. -/
theorem parseContent_faults {c : HttpConn} {text : Nat} (h : Bounded c)
    (hfits : ¬ ContentFits c text) : ∃ e, c.parseContent text = .error e := by
  unfold HttpConn.parseContent
  by_cases hmax : c.mContentLength + c.mCheckedIdx ≤ intMax
  · have hsum : addInt c.mContentLength c.mCheckedIdx = .ok (c.mContentLength + c.mCheckedIdx) := by
      rw [addInt_eq_ok]
      have := h.contentLength.1
      exact ⟨⟨by omega, hmax⟩, rfl⟩
    have hneg : (text : Int) + c.mContentLength < 0 := by
      by_contra h0
      exact hfits ⟨by omega, hmax⟩
    have hdone : (c.mReadIdx : Int) ≥ c.mContentLength + c.mCheckedIdx := by
      have := h.checked_le
      omega
    rw [hsum, ok_bind, if_pos hdone, storeInt, if_pos hneg]
    exact ⟨_, rfl⟩
  · refine ⟨.overflow, ?_⟩
    rw [addInt, if_neg (by omega)]
    rfl

/-- `do_request` on a connection with a URL. -/
theorem doRequest_bounds (fs : FileSystem) {c : HttpConn} (h : Bounded c)
    (hurl : ∃ p, c.mUrl = some p) :
    ∃ ret c', c.doRequest fs = .ok (ret, c') ∧ Bounded c' ∧ KeepsIdx c c' := by
  obtain ⟨p, hp⟩ := hurl
  obtain ⟨url, hfetch, -⟩ := h.readBuf.fetch (h.url p hp)
  obtain ⟨m, hm, hterm⟩ := h.realFile.copyIn 0 (docRoot ++ [0]) (by decide)
  have hpad : (url.take (filenameLen - docRoot.length - 1) ++
      List.replicate (filenameLen - docRoot.length - 1 - url.length) (0 : UInt8)).length =
      filenameLen - docRoot.length - 1 := by
    simp only [List.length_append, List.length_take, List.length_replicate]
    omega
  have hroot : docRoot.length + (filenameLen - docRoot.length - 1) ≤ filenameLen - 1 := by decide
  obtain ⟨m', hm', hterm'⟩ := hterm.copyIn _ _ (by rwa [← hpad] at hroot)
  obtain ⟨path, hpath, -⟩ := hterm'.fetch (Nat.zero_le _)
  have hkeep : ∀ st a, Bounded { c with mRealFile := m', mFileStat := st, mFileAddress := a } :=
    fun _ _ => ⟨h.readBuf, hterm', h.start_le, h.checked_le, h.read_le, h.url, h.hasUrl,
      h.contentLength⟩
  unfold HttpConn.doRequest strncpy
  simp only [hm, ok_bind, hp, hfetch, hm', hpath]
  cases fs.stat path with
  | none => exact ⟨_, _, rfl, by simpa [hp] using hkeep c.mFileStat c.mFileAddress, ⟨rfl, rfl, rfl⟩⟩
  | some st =>
    simp only
    split
    · exact ⟨_, _, rfl, by simpa [hp] using hkeep st c.mFileAddress, ⟨rfl, rfl, rfl⟩⟩
    · split
      · exact ⟨_, _, rfl, by simpa [hp] using hkeep st c.mFileAddress, ⟨rfl, rfl, rfl⟩⟩
      · exact ⟨_, _, rfl, by simpa [hp] using hkeep st _, ⟨rfl, rfl, rfl⟩⟩

/-! ## The loop of `process_read` -/

/-- The loop condition. A line that it finds starts before the checked index, and was not
scanned before. -/
theorem nextLine_bounds {c : HttpConn} (ls : LineStatus) (h : Bounded c) :
    ∃ ls' c', c.nextLine ls = .ok (ls', c') ∧ Bounded c' ∧
      (c'.mReadIdx = c.mReadIdx ∧ c'.mCheckState = c.mCheckState ∧
        c'.mContentLength = c.mContentLength) ∧
      c.mCheckedIdx ≤ c'.mCheckedIdx ∧
      (ls' = .lineOk → ¬(c.mCheckState = .checkStateContent ∧ ls = .lineOk) →
        c.mCheckedIdx < c'.mCheckedIdx) := by
  unfold HttpConn.nextLine
  split
  · rename_i hcontent
    exact ⟨_, _, rfl, h, ⟨rfl, rfl, rfl⟩, Nat.le_refl _, fun _ hne => absurd hcontent hne⟩
  · obtain ⟨status, buf, checked, hparse, hb, hle, hlt⟩ := parseLine_bounds h
    exact ⟨_, _, hparse, hb, ⟨rfl, rfl, rfl⟩, hle, fun hok _ => hlt hok⟩

/-- The line that a call works on starts before the checked index. -/
theorem Bounded.startLine_fetch {c : HttpConn} (h : Bounded c) :
    ∃ s, fetch c.mReadBuf c.mStartLine = .ok s := by
  have := h.start_le
  have := h.checked_le
  have := h.read_le
  obtain ⟨s, hs, -⟩ := h.readBuf.fetch (p := c.mStartLine) (by omega)
  exact ⟨s, hs⟩

/-- Moving the line start to the checked index keeps the bounds. -/
theorem Bounded.enterLine {c : HttpConn} (h : Bounded c) :
    Bounded { c with mStartLine := c.mCheckedIdx } :=
  ⟨h.readBuf, h.realFile, Nat.le_refl _, h.checked_le, h.read_le, h.url, h.hasUrl, h.contentLength⟩

/-- The iterations that the loop can still make: one for each byte not scanned yet, the
last one, and one on a body that has not been looked at in this call. -/
def budget (ls : LineStatus) (c : HttpConn) : Nat :=
  c.mReadIdx - c.mCheckedIdx +
    if c.mCheckState = .checkStateContent ∧ ls ≠ .lineOk then 1 else 2

end ServerListings.Interface
