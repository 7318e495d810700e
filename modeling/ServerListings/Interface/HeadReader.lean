import ServerListings.Interface.SharedText
import ServerListings.Model.HttpParse

/-!
# The header phase of `process_read` as a reader of lines

`headReader` says what the request line and the header lines of a request do to the members
a client can influence: the URL and host strings, the keep-alive flag and the announced body
length. It sees lines, not a buffer. The reading stops with a malformed line ending (which
`process_read` answers with `NO_REQUEST` for ever), with a rejected request line, or with the
blank line.
-/

set_option autoImplicit false

namespace ServerListings.Interface

open Lib.CMem Lib.LineReader ServerListings.Model ServerListings.Model.Http

/-- What has been read of a request's header part. -/
structure HeadState where
  inHeader : Bool
  url : Option (List UInt8)
  host : Option (List UInt8)
  linger : Bool
  contentLength : Int
  deriving DecidableEq, Repr

/-- The header part before its first byte. -/
def HeadState.init : HeadState := ⟨false, none, none, false, 0⟩

/-- How the reading of a header part ends. -/
inductive Stop
  | stuck (h : HeadState)
  | reject (h : HeadState)
  | request (h : HeadState)
  | body (h : HeadState)

/-- A line starts with a header name, in any case. -/
def startsWith (t name : List UInt8) : Bool := eqIgnoreCase (t.take name.length) name

/-- The text of a header line behind its name and the tabs after it. -/
def headerValue (t : List UInt8) (n : Nat) : List UInt8 := (t.drop n).dropWhile (· ∈ [TAB])

/-- One header line, as a C string. -/
def readHeader (h : HeadState) (t : List UInt8) : Except Stop HeadState :=
  if t = [] then
    if h.contentLength ≠ 0 then .error (.body h) else .error (.request h)
  else if startsWith t (bytes "Connection:") then
    .ok { h with linger := h.linger || eqIgnoreCase (headerValue t 11) (bytes "keep-alive") }
  else if startsWith t (bytes "Content-Length:") then
    .ok { h with contentLength := toInt (atol (headerValue t 15)) }
  else if startsWith t (bytes "Host:") then
    .ok { h with host := some (headerValue t 5) }
  else
    .ok h

def headReader : Handler HeadState Stop where
  line h l :=
    if h.inHeader then readHeader h (cstr l)
    else
      let r := readRequestLine [SP, TAB] (cstr l)
      if r.accepted then .ok { h with url := r.url, inHeader := true }
      else .error (.reject { h with url := r.url })
  bad := .stuck

/-- The reading of a stream from its first byte. -/
def readHead (s : List UInt8) : Except Stop (State HeadState) :=
  feed headReader (State.fresh HeadState.init) s

/-- No header line before the blank line sets the body length to a non-zero value. -/
def AnnouncesNoBody (s : List UInt8) : Prop :=
  ∀ n st, readHead (s.take n) = .ok st → st.ctl.contentLength = 0

/-- `hd` ends with the blank line of a header part, and `h` is what it says. -/
def IsHead (hd : List UInt8) (h : HeadState) : Prop :=
  ∃ a b st, hd = a ++ [b] ∧ readHead a = .ok st ∧ step headReader st b = .error (.body h)

/-- Only the blank line of a header part with a body length stops for a body. -/
theorem headReader_line_body {h h' : HeadState} {l : List UInt8}
    (hl : headReader.line h l = .error (.body h')) : h' = h ∧ h.contentLength ≠ 0 := by
  unfold headReader at hl
  simp only at hl
  split at hl
  · unfold readHeader at hl
    split at hl
    · split at hl
      · rename_i hlen
        exact ⟨by simpa using hl.symm, hlen⟩
      · cases hl
    · repeat' split at hl
      all_goals cases hl
  · split at hl <;> cases hl

/-- A stream that announces no body is never taken for the header of one. -/
theorem AnnouncesNoBody.not_body {s : List UInt8} (h : AnnouncesNoBody s) (hs : HeadState) :
    readHead s ≠ .error (.body hs) := by
  intro hbody
  obtain ⟨a, b, c, st, rfl, ha, hstep⟩ := feed_error_split headReader hbody
  rcases step_eq_error headReader hstep with ⟨-, -, hline⟩ | hbad
  · have hzero : st.ctl.contentLength = 0 := by
      refine h a.length st ?_
      rwa [List.take_left]
    exact (headReader_line_body hline).2 hzero
  · cases hbad

/-! ## Header parts -/

/-- A head ends where the body begins. -/
theorem IsHead.stops {hd : List UInt8} {h : HeadState} (hh : IsHead hd h) :
    readHead hd = .error (.body h) := by
  obtain ⟨a, b, st, rfl, ha, hstep⟩ := hh
  rw [readHead, feed_append, ← readHead, ha, ok_bind, feed_cons, hstep]
  rfl

/-- What is said by a header part that a body follows. -/
def announced : Except Stop (State HeadState) → Option HeadState
  | .error (.body h) => some h
  | _ => none

/-- Reading tells whether a stream is a header part. -/
theorem isHead_of_announced {a : List UInt8} {b : UInt8} {h : HeadState}
    (ha : (readHead a).isOk = true) (hbody : announced (readHead (a ++ [b])) = some h) :
    IsHead (a ++ [b]) h := by
  cases hread : readHead a with
  | error v =>
    rw [hread] at ha
    cases ha
  | ok st =>
    rw [readHead, feed_append, ← readHead, hread, ok_bind, feed_cons] at hbody
    cases hstep : step headReader st b with
    | ok st' =>
      rw [hstep] at hbody
      cases hbody
    | error v =>
      rw [hstep] at hbody
      cases v with
      | body h' =>
        obtain rfl : h' = h := by simpa [announced] using hbody
        exact ⟨a, b, st, rfl, hread, hstep⟩
      | stuck h' => cases hbody
      | reject h' => cases hbody
      | request h' => cases hbody

/-- A stream is still in its header part at every place before the last byte of it. -/
theorem IsHead.prefix_ok {hd s t : List UInt8} {h : HeadState} (hh : IsHead hd h)
    (hs : s ++ t = hd) (ht : t ≠ []) : ∃ st, readHead s = .ok st := by
  obtain ⟨a, b, st, rfl, ha, -⟩ := hh
  obtain ⟨t', b', rfl⟩ := (List.eq_nil_or_concat' t).resolve_left ht
  rw [← List.append_assoc] at hs
  obtain ⟨rfl, -⟩ := List.append_inj' hs rfl
  cases hread : readHead s with
  | ok st' => exact ⟨st', rfl⟩
  | error v =>
    have herror := feed_append_error headReader t' hread
    rw [← readHead, ha] at herror
    cases herror

/-- A stream has one header part. -/
theorem IsHead.unique {hd hd' w w' : List UInt8} {h h' : HeadState} (hh : IsHead hd h)
    (hh' : IsHead hd' h') (hs : hd ++ w = hd' ++ w') : hd = hd' := by
  -- the shorter of two header parts would be inside the other one
  have hinside : ∀ (x y t : List UInt8) (k k' : HeadState), IsHead x k → IsHead y k' → x ++ t = y →
      t = [] := by
    intro x y t k k' hx hy ht
    by_contra hne
    obtain ⟨st, hst⟩ := hy.prefix_ok ht hne
    rw [hx.stops] at hst
    cases hst
  rcases List.append_eq_append_iff.mp hs with ⟨t, rfl, -⟩ | ⟨t, rfl, -⟩
  · rw [hinside _ _ t _ _ hh hh' rfl, List.append_nil]
  · rw [hinside _ _ t _ _ hh' hh rfl, List.append_nil]

/-! ## The URL of an accepted header part -/

/-- An accepted request line has a URL. -/
theorem readRequestLine_url {delims t : List UInt8} (h : (readRequestLine delims t).accepted = true) :
    ∃ url, (readRequestLine delims t).url = some url := by
  revert h
  unfold readRequestLine readTarget readUrl
  dsimp only
  repeat' split
  all_goals simp

/-- Behind an accepted request line there is a URL. -/
def HeadState.HasUrl (h : HeadState) : Prop := h.inHeader = true → ∃ url, h.url = some url

/-- A header leaves the URL alone. -/
theorem readHeader_eq_ok {h h' : HeadState} {t : List UInt8} (hr : readHeader h t = .ok h') :
    h'.url = h.url ∧ h'.inHeader = h.inHeader := by
  unfold readHeader at hr
  repeat' split at hr
  all_goals cases hr
  all_goals exact ⟨rfl, rfl⟩

/-- A line leaves a head with a URL. -/
theorem headReader_hasUrl (h : HeadState) (l : List UInt8) (h' : HeadState) (hh : h.HasUrl)
    (hl : headReader.line h l = .ok h') : h'.HasUrl := by
  unfold headReader at hl
  simp only at hl
  split at hl
  · obtain ⟨hurl, hin⟩ := readHeader_eq_ok hl
    unfold HeadState.HasUrl at hh ⊢
    rwa [hurl, hin]
  · split at hl
    · rename_i hacc
      obtain rfl := Except.ok.inj hl
      intro _
      exact readRequestLine_url hacc
    · cases hl

/-- Behind the request line a head has a URL. -/
theorem readHead_hasUrl {s : List UInt8} {st : State HeadState} (h : readHead s = .ok st) :
    st.ctl.HasUrl :=
  feed_invariant headReader headReader_hasUrl (by intro h0; cases h0) h

/-- Only a header line ends the header part, and it changes nothing. -/
theorem headReader_line_end {h h' : HeadState} {l : List UInt8} {v : Stop}
    (hl : headReader.line h l = .error v) (hv : v = .request h' ∨ v = .body h') :
    h' = h ∧ h.inHeader = true := by
  unfold headReader at hl
  simp only at hl
  split at hl
  · rename_i hin
    refine ⟨?_, hin⟩
    unfold readHeader at hl
    rcases hv with rfl | rfl
    all_goals
      repeat' split at hl
      all_goals cases hl
      rfl
  · split at hl
    · cases hl
    · obtain rfl := Except.error.inj hl
      rcases hv with hv | hv <;> cases hv

/-- A header part that ends has a URL. -/
theorem step_end_url {s : List UInt8} {st : State HeadState} {b : UInt8} {h : HeadState} {v : Stop}
    (hs : readHead s = .ok st) (hstep : step headReader st b = .error v)
    (hv : v = .request h ∨ v = .body h) : ∃ url, h.url = some url := by
  rcases step_eq_error headReader hstep with ⟨-, -, hline⟩ | hbad
  · obtain ⟨rfl, hin⟩ := headReader_line_end hline hv
    exact readHead_hasUrl hs hin
  · rcases hv with rfl | rfl <;> cases hbad

/-- A request without a body has a URL. -/
theorem readHead_request_url {s : List UInt8} {h : HeadState}
    (hs : readHead s = .error (.request h)) : ∃ url, h.url = some url := by
  obtain ⟨a, b, c, st, rfl, ha, hstep⟩ := feed_error_split headReader hs
  exact step_end_url ha hstep (Or.inl rfl)

/-! ## The rejected request line -/

/-- The first line of the stream is complete, and it is no request line. -/
def FirstLineRejected (s : List UInt8) : Prop :=
  ∃ l rest, s = l ++ CR :: LF :: rest ∧ Clean l ∧
    (readRequestLine [SP, TAB] (cstr l)).accepted = false

/-- No header line is rejected. -/
theorem readHead_header_ne_reject {st : State HeadState} (hin : st.ctl.inHeader = true)
    (w : List UInt8) (h : HeadState) : feed headReader st w ≠ .error (.reject h) := by
  intro hfeed
  obtain ⟨a, b, rest, st', -, ha, hstep⟩ := feed_error_split headReader hfeed
  have hin' : st'.ctl.inHeader = true := by
    refine feed_invariant headReader (P := fun h => h.inHeader = true) ?_ hin ha
    intro s l s' hs hl
    simp only [headReader, hs, if_true] at hl
    rw [(readHeader_eq_ok hl).2, hs]
  rcases step_eq_error headReader hstep with ⟨-, -, hline⟩ | hbad
  · simp only [headReader, hin', if_true] at hline
    unfold readHeader at hline
    repeat' split at hline
    all_goals cases hline
  · cases hbad

/-- A head is rejected for its first line only. -/
theorem readHead_reject_iff (s : List UInt8) :
    (∃ h, readHead s = .error (.reject h)) ↔ FirstLineRejected s := by
  have hline : ∀ l : List UInt8, headReader.line HeadState.init l =
      if (readRequestLine [SP, TAB] (cstr l)).accepted then
        .ok { HeadState.init with url := (readRequestLine [SP, TAB] (cstr l)).url, inHeader := true }
      else .error (.reject { HeadState.init with url := (readRequestLine [SP, TAB] (cstr l)).url }) :=
    fun l => rfl
  constructor
  · rintro ⟨h, hread⟩
    unfold readHead at hread
    cases cut s with
    | clean _ hu =>
      rw [feed_fresh_clean _ _ _ hu] at hread
      cases hread
    | cr u hu =>
      rw [feed_fresh_cr _ _ _ hu] at hread
      cases hread
    | badCr u b w hu hb =>
      rw [feed_fresh_badCr _ _ _ _ _ hu hb] at hread
      cases hread
    | badLf u w hu =>
      rw [feed_fresh_badLf _ _ _ _ hu] at hread
      cases hread
    | crlf u w hu =>
      refine ⟨u, w, rfl, hu, ?_⟩
      by_contra hacc
      rw [feed_fresh_crlf _ _ _ _ hu, hline, if_pos (by simpa using hacc), ok_bind] at hread
      exact readHead_header_ne_reject (by rfl) w h hread
  · rintro ⟨l, rest, rfl, hl, hacc⟩
    refine ⟨{ HeadState.init with url := (readRequestLine [SP, TAB] (cstr l)).url }, ?_⟩
    rw [readHead, feed_fresh_crlf _ _ _ _ hl, hline, if_neg (by simp [hacc])]
    rfl

end ServerListings.Interface
