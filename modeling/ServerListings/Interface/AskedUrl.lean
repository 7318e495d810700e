import ServerListings.Interface.HeadReader
import ServerListings.Interface.HttpBounds
import ServerListings.Interface.ReplySide

/-!
# The URL stays where the request line has it

An accepted request line leaves `m_url` at a string that ends before the next line. Everything
that is stored into the read buffer afterwards is stored behind it, with one exception: when a
body has come in, `parse_content` stores a NUL `m_content_length` bytes behind the line it
is called for, and that number may be negative. `HasPath` is the invariant of what is left of
the path.
-/

set_option autoImplicit false

namespace ServerListings.Interface

open Lib.CMem Lib.LineReader ServerListings.Model ServerListings.Model.Http

/-! ## Line scans -/

/-- A NUL is stored where no string ends before. -/
theorem ensures_store_zero {m : List UInt8} {e i : Nat} (hi : e ≤ i + 1) :
    Ensures (store m i 0) fun m' => KeepsStrings e m m' ∧ load m' i = .ok 0 := by
  constructor
  intro m' h
  refine ⟨keepsStrings_store hi h, ?_⟩
  unfold store at h
  split at h
  · obtain rfl := Except.ok.inj h
    rw [load, List.getElem?_set_self ‹_›]
  · cases h

/-- A scan keeps the strings of earlier lines, and a line that it finds ends in a NUL. -/
def Scanned (checked : Nat) (buf : List UInt8) (scan : LineScan) : Prop :=
  KeepsStrings checked buf scan.buf ∧
    (scan.status = .lineOk → load scan.buf (scan.checked - 1) = .ok 0)

/-- Nothing more is stored when no line was found. -/
theorem scanned_stop {checked : Nat} {buf : List UInt8} {status : LineStatus} (h : status ≠ .lineOk) :
    Ensures (.ok ⟨status, buf, checked⟩) (Scanned checked buf) :=
  ensures_pure ⟨.refl _ _, fun h' => absurd h' h⟩

/-- The scan of `parse_line` stores behind the bytes that were scanned before. -/
theorem lineLoop_scanned (n : Nat) : ∀ (buf : List UInt8) (checked read : Nat),
    Ensures (lineLoop n buf checked read) (Scanned checked buf) := by
  induction n with
  | zero =>
    intro buf checked read
    exact scanned_stop (by simp)
  | succ n ih =>
    intro buf checked read
    unfold lineLoop
    apply ensures_bind
    intro temp
    apply ensures_ite
    · apply ensures_ite
      · exact scanned_stop (by simp)
      apply ensures_bind
      intro next
      apply ensures_ite
      · apply (ensures_store_zero (Nat.le_succ checked)).bind
        rintro buf₁ ⟨hkeeps, -⟩
        apply (ensures_store_zero (e := checked) (Nat.le_add_right checked 2)).bind
        rintro buf₂ ⟨hkeeps', hzero⟩
        exact ensures_pure ⟨hkeeps.trans hkeeps', fun _ => hzero⟩
      · exact scanned_stop (by simp)
    apply ensures_ite
    · by_cases hpos : checked > 1
      · rw [if_pos hpos]
        apply ensures_bind
        intro prev
        apply ensures_ite
        · apply (ensures_store_zero (e := checked) (by omega)).bind
          rintro buf₁ ⟨hkeeps, -⟩
          apply (ensures_store_zero (Nat.le_succ checked)).bind
          rintro buf₂ ⟨hkeeps', hzero⟩
          exact ensures_pure ⟨hkeeps.trans hkeeps', fun _ => hzero⟩
        · exact scanned_stop (by simp)
      · rw [if_neg hpos]
        exact scanned_stop (by simp)
    · refine (ih buf (checked + 1) read).mono ?_
      rintro scan ⟨hkeeps, hzero⟩
      exact ⟨hkeeps.mono (Nat.le_succ checked), hzero⟩

/-- The loop condition leaves everything alone but the buffer and the checked index. -/
theorem nextLine_scanned (c : HttpConn) (ls : LineStatus) :
    Ensures (c.nextLine ls) fun r => ∃ buf checked,
      r.2 = { c with mReadBuf := buf, mCheckedIdx := checked } ∧
        KeepsStrings c.mCheckedIdx c.mReadBuf buf ∧
        (r.1 = .lineOk → c.mCheckState ≠ .checkStateContent → load buf (checked - 1) = .ok 0) := by
  unfold HttpConn.nextLine
  split
  · rename_i hcontent
    exact ensures_pure ⟨_, _, rfl, .refl _ _, fun _ hne => absurd hcontent.1 hne⟩
  · apply (lineLoop_scanned _ _ _ _).bind
    rintro scan ⟨hkeeps, hzero⟩
    exact ensures_pure ⟨_, _, rfl, hkeeps, fun hok _ => hzero hok⟩

/-! ## The request line -/

/-- The URL of an accepted request line ends in front of a NUL behind the line. -/
theorem parseRequestLine_path {c c' : HttpConn} {text i : Nat} (htext : text ≤ i)
    (hterm : Terminated (readBufferSize - 1) c.mReadBuf) (hbuf : text ≤ readBufferSize - 1)
    (hzero : load c.mReadBuf i = .ok 0)
    (hparse : c.parseRequestLine text = .ok (.noRequest, c')) :
    c'.mCheckState = .checkStateHeader ∧ c'.mStartLine = c.mStartLine ∧
      ∃ p path, c'.mUrl = some p ∧ fetch c'.mReadBuf p = .ok path ∧ p + path.length ≤ i := by
  obtain ⟨line, hline, -⟩ := hterm.fetch hbuf
  obtain ⟨pre, r, hsplit, rfl, h0⟩ := fetch_split hline
  obtain ⟨res, hres, hacc, l', hlen, hl', hurl⟩ := requestLine_reads [SP, TAB] pre line r c.mVersion
  have hend := fetch_length_le hline htext hzero
  unfold HttpConn.parseRequestLine at hparse
  rw [hsplit, hres, ok_bind] at hparse
  cases haccepted : res.accepted with
  | false =>
    simp only [haccepted, Bool.false_eq_true, if_false] at hparse
    cases hparse
  | true =>
    simp only [haccepted, if_true] at hparse
    obtain rfl := (Prod.mk.inj (Except.ok.inj hparse)).2
    rw [cstr_of_notMem h0] at hacc hurl
    obtain ⟨path, hpath⟩ := readRequestLine_url (hacc.symm.trans haccepted)
    rw [hpath] at hurl
    obtain ⟨p, hp, hfetch⟩ := strAt_eq_some hurl
    have hlt := fetch_length_lt hfetch
    rw [List.length_append, List.length_append, hlen, List.length_singleton] at hlt
    refine ⟨rfl, rfl, p, path, hp, ?_, by omega⟩
    show fetch res.buf p = .ok path
    have hright : res.buf = (pre ++ (l' ++ [0])) ++ r := by simp [hl']
    rw [hright]
    exact fetch_append_right r hfetch

/-- A request line that is not accepted leaves the state of the parser alone. -/
theorem parseRequestLine_rejected (c : HttpConn) (text : Nat) :
    Ensures (c.parseRequestLine text) fun r =>
      r.1 = .noRequest ∨ r.1 = .badRequest ∧ r.2.mCheckState = c.mCheckState := by
  apply ensures_bind
  intro res
  apply ensures_ite
  · exact ensures_pure (.inl rfl)
  · exact ensures_pure (.inr ⟨rfl, rfl⟩)

/-- The check of the URL: an accepted one begins with a slash. -/
theorem requestUrl_slash (buf : List UInt8) (url version : Nat) :
    Ensures (requestUrl buf url version) fun res =>
      res.accepted = true → ∃ p, res.url = some p ∧ load res.buf p = .ok SLASH := by
  constructor
  intro res hres
  have hcheck : ∀ p, (do
      let first ← load buf p
      pure ⟨buf, some p, some version, true, first == SLASH⟩ : Checked RequestLine) = .ok res →
      res.accepted = true → ∃ p, res.url = some p ∧ load res.buf p = .ok SLASH := by
    intro p hcheck hacc
    obtain ⟨first, hfirst, hcheck⟩ := bind_eq_ok.mp hcheck
    obtain rfl := Except.ok.inj hcheck
    obtain rfl : first = SLASH := beq_iff_eq.mp hacc
    exact ⟨p, rfl, hfirst⟩
  obtain ⟨skipped, -, hres⟩ := bind_eq_ok.mp hres
  dsimp only at hres
  split at hres
  · obtain ⟨q, -, hres⟩ := bind_eq_ok.mp hres
    cases q with
    | none =>
      obtain rfl := Except.ok.inj hres
      simp
    | some p => exact hcheck p hres
  · exact hcheck url hres

/-- The URL of an accepted request line begins with a slash. -/
theorem requestLine_slash (delims buf : List UInt8) (text : Nat) (version : Option Nat) :
    Ensures (requestLine delims buf text version) fun res =>
      res.accepted = true → ∃ p, res.url = some p ∧ load res.buf p = .ok SLASH := by
  apply ensures_bind
  intro url
  cases url with
  | none => exact ensures_pure (by simp)
  | some url =>
    apply ensures_bind
    intro buf
    apply ensures_bind
    intro isGet
    apply ensures_ite
    · exact ensures_pure (by simp)
    apply ensures_bind
    intro tabs
    apply ensures_bind
    intro target
    cases target with
    | none => exact ensures_pure (by simp)
    | some version =>
      apply ensures_bind
      intro buf
      apply ensures_bind
      intro tabs
      apply ensures_bind
      intro isVersion
      apply ensures_ite
      · exact ensures_pure (by simp)
      · exact requestUrl_slash _ _ _

/-- `parse_request_line` accepts paths that begin with a slash only. -/
theorem parseRequestLine_slash {c c' : HttpConn} {text : Nat} {path : List UInt8}
    (hline : c.parseRequestLine text = .ok (.noRequest, c'))
    (hpath : strAt c'.mReadBuf c'.mUrl = .ok (some path)) : ∃ rest, path = SLASH :: rest := by
  obtain ⟨res, hres, hline⟩ := bind_eq_ok.mp hline
  cases hacc : res.accepted with
  | false =>
    simp only [hacc, Bool.false_eq_true, if_false] at hline
    cases hline
  | true =>
    obtain ⟨p, hp, hfirst⟩ := (requestLine_slash _ _ _ _).result hres hacc
    simp only [hacc, if_true] at hline
    obtain rfl := (Prod.mk.inj (Except.ok.inj hline)).2
    obtain ⟨q, hq, hfetch⟩ := strAt_eq_some hpath
    obtain rfl : q = p := Option.some.inj (hq.symm.trans hp)
    exact fetch_cons hfetch hfirst (by decide)

/-! ## What is left of the path -/

/-- `m_url` points at subscript `p`, where an accepted request line had `path`. There is still
the path, or the part of it in front of a NUL that was stored for a body of negative length. -/
structure HasPath (path : List UInt8) (p : Nat) (c : HttpConn) : Prop where
  url : c.mUrl = some p
  before : p + path.length < c.mStartLine
  accepted : c.mCheckState ≠ .checkStateRequestline
  string : ∃ s, fetch c.mReadBuf p = .ok s ∧ s <+: path ∧
    (s = path ∨ c.mCheckState = .checkStateContent ∧ c.mContentLength < 0)

section Steps

variable {path : List UInt8} {p : Nat} {c : HttpConn}

/-- A change that keeps the strings before the current line and the members of the URL. -/
theorem HasPath.of_keeps {c' : HttpConn} (h : HasPath path p c) (hurl : c'.mUrl = c.mUrl)
    (hstart : c.mStartLine ≤ c'.mStartLine) (hstate : c'.mCheckState = c.mCheckState)
    (hlength : c'.mContentLength = c.mContentLength)
    (hkeeps : KeepsStrings c.mStartLine c.mReadBuf c'.mReadBuf) : HasPath path p c' := by
  obtain ⟨s, hs, hpart, hwhole⟩ := h.string
  have hle := hpart.length_le
  have hbefore := h.before
  refine ⟨hurl.trans h.url, by omega, by rw [hstate]; exact h.accepted, s, ?_, hpart, ?_⟩
  · exact hkeeps p s hs (by omega)
  · rwa [hstate, hlength]

/-- Received bytes leave the path alone. -/
theorem HasPath.receive (h : HasPath path p c) (hle : c.mStartLine ≤ c.mReadIdx) (data : List UInt8) :
    Ensures (c.receive data) (HasPath path p) := by
  constructor
  intro c' hc'
  cases hcopy : copyIn c.mReadBuf c.mReadIdx data with
  | error e =>
    rw [HttpConn.receive, hcopy] at hc'
    cases hc'
  | ok buf =>
    rw [HttpConn.receive_of_copyIn hcopy] at hc'
    obtain rfl := Except.ok.inj hc'
    exact h.of_keeps rfl (Nat.le_refl _) rfl rfl (keepsStrings_copyIn hle hcopy)

/-- The scan for the next line leaves the path alone. -/
theorem HasPath.nextLine (h : HasPath path p c) (hle : c.mStartLine ≤ c.mCheckedIdx) (ls : LineStatus) :
    Ensures (c.nextLine ls) fun r => HasPath path p r.2 := by
  refine (nextLine_scanned c ls).mono ?_
  rintro ⟨ls', -⟩ ⟨buf, checked, rfl, hkeeps, -⟩
  exact h.of_keeps rfl (Nat.le_refl _) rfl rfl (hkeeps.mono hle)

/-- The next line begins behind the path. -/
theorem HasPath.enterLine (h : HasPath path p c) (hle : c.mStartLine ≤ c.mCheckedIdx) :
    HasPath path p { c with mStartLine := c.mCheckedIdx } :=
  h.of_keeps rfl hle rfl rfl (.refl _ _)

/-- Header lines are only looked at while the path is whole. -/
theorem HasPath.parseHeaders (h : HasPath path p c) (hstate : c.mCheckState = .checkStateHeader)
    (text : Nat) : Ensures (c.parseHeaders text) fun r => HasPath path p r.2 := by
  have hwhole : fetch c.mReadBuf p = .ok path := by
    obtain ⟨s, hs, -, rfl | ⟨hcontent, -⟩⟩ := h.string
    · exact hs
    · rw [hstate] at hcontent
      cases hcontent
  refine (parseHeaders_read c text).mono ?_
  intro r hr
  cases hr with
  | request => exact h
  | ignored => exact h
  | body => exact ⟨h.url, h.before, by simp, path, hwhole, List.prefix_rfl, .inl rfl⟩
  | linger => exact ⟨h.url, h.before, h.accepted, h.string⟩
  | host p' => exact ⟨h.url, h.before, h.accepted, h.string⟩
  | length n => exact ⟨h.url, h.before, h.accepted, path, hwhole, List.prefix_rfl, .inl rfl⟩

/-- The NUL that ends the body can fall into the path, if the length of the body is negative. -/
theorem HasPath.parseContent (h : HasPath path p c) (hstate : c.mCheckState = .checkStateContent)
    {text : Nat} (htext : p + path.length < text) :
    Ensures (c.parseContent text) fun r => HasPath path p r.2 := by
  apply ensures_bind
  intro bodyEnd
  apply ensures_ite
  · constructor
    intro r hr
    obtain ⟨buf, hstore, hr⟩ := bind_eq_ok.mp hr
    obtain rfl := Except.ok.inj hr
    unfold storeInt at hstore
    split at hstore
    · cases hstore
    unfold store at hstore
    split at hstore
    · obtain rfl := Except.ok.inj hstore
      obtain ⟨s, hs, hpart, hwhole⟩ := h.string
      have hle := hpart.length_le
      have hstored := fetch_set_zero hs (text + c.mContentLength).toNat
      by_cases hneg : c.mContentLength < 0
      · refine ⟨h.url, h.before, h.accepted, _, hstored, ?_, .inr ⟨hstate, hneg⟩⟩
        split
        · exact (List.take_prefix _ _).trans hpart
        · exact hpart
      · rw [if_pos (by omega), List.take_of_length_le (by omega)] at hstored
        exact ⟨h.url, h.before, h.accepted, s, hstored, hpart, hwhole⟩
    · cases hstore
  · exact ensures_pure h

/-- `do_request` leaves the path alone. -/
theorem HasPath.doRequest (h : HasPath path p c) (fs : FileSystem) :
    Ensures (c.doRequest fs) fun r => HasPath path p r.2 := by
  refine (doRequest_sought fs c).mono ?_
  intro r hr
  cases hr with
  | noResource m => exact ⟨h.url, h.before, h.accepted, h.string⟩
  | forbidden m st => exact ⟨h.url, h.before, h.accepted, h.string⟩
  | directory m st => exact ⟨h.url, h.before, h.accepted, h.string⟩
  | file m path st => exact ⟨h.url, h.before, h.accepted, h.string⟩

/-- The connection behind an iteration of `process_read`. -/
def nextConn : Next → HttpConn
  | .ret _ c | .doRequest c | .again _ c => c

/-- The switch of `process_read` leaves the path alone. -/
theorem HasPath.dispatch (h : HasPath path p c) {text : Nat} (htext : p + path.length < text) :
    Ensures (c.dispatch text) fun next => HasPath path p (nextConn next) := by
  unfold HttpConn.dispatch
  cases hstate : c.mCheckState with
  | checkStateRequestline => exact absurd hstate h.accepted
  | checkStateHeader =>
    apply (h.parseHeaders hstate text).bind
    rintro ⟨ret, c'⟩ h'
    apply ensures_ite
    · exact ensures_pure h'
    apply ensures_ite
    · exact ensures_pure h'
    · exact ensures_pure h'
  | checkStateContent =>
    apply (h.parseContent hstate htext).bind
    rintro ⟨ret, c'⟩ h'
    apply ensures_ite
    · exact ensures_pure h'
    · exact ensures_pure h'

end Steps

end ServerListings.Interface
