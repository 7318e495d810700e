import ServerListings.Interface.HttpHead
import ServerListings.Interface.ServedFile

/-!
# The header phase does not depend on the segmentation

What a client can observe of `process_read` on a request without a body is a function of the
bytes received (`answer`), and neither the number of calls nor the places where the stream is
cut enter it (`readChunks_split`).
-/

set_option autoImplicit false

namespace ServerListings.Analysis.HeaderSegmentation

open Lib.CMem Lib.LineReader ServerListings.Model ServerListings.Model.Http ServerListings.Interface

/-- What can be observed after a call of `process_read`: its result, the C strings `m_url`
and `m_host`, and the members `m_linger` and `m_check_state`. -/
structure Observation where
  ret : HttpCode
  url : Option (List UInt8)
  host : Option (List UInt8)
  linger : Bool
  checkState : CheckState
  deriving DecidableEq, Repr

def observe (r : HttpCode × HttpConn) : Checked Observation := do
  let url ← strAt r.2.mReadBuf r.2.mUrl
  let host ← strAt r.2.mReadBuf r.2.mHost
  pure ⟨r.1, url, host, r.2.mLinger, r.2.mCheckState⟩

/-- One call of `process_read` on a connection that has just received all of `s`. -/
def readWhole (fs : FileSystem) (c : HttpConn) (s : List UInt8) : Checked (HttpCode × HttpConn) := do
  let c ← c.receive s
  c.processRead fs

/-- The observation that shows `h`. -/
def shown (ret : HttpCode) (h : HeadState) : Observation :=
  ⟨ret, h.url, h.host, h.linger,
    if h.inHeader then .checkStateHeader else .checkStateRequestline⟩

/-- What is observed when the reader has read a whole stream without a body. -/
def answer (fs : FileSystem) : Except Stop (State HeadState) → Observation
  | .ok st => shown .noRequest st.ctl
  | .error (.stuck h) => shown .noRequest h
  | .error (.reject h) => shown .badRequest h
  | .error (.request h) => shown (requestCode fs (h.url.getD [])) h
  | .error (.body h) => shown .noRequest h

/-- What is observed of a connection is what its state shows. -/
theorem observe_shows {c : HttpConn} {h : HeadState} (code : HttpCode)
    (hs : Shows c.mReadBuf c h) : observe (code, c) = .ok (shown code h) := by
  unfold observe
  simp only [hs.url, hs.host, ok_bind, hs.linger, hs.checkState]
  rfl

/-- A call either ends with an answer, or leaves the connection waiting for more of the
stream. -/
theorem outcome_answer {fs : FileSystem} {res : Checked (HttpCode × HttpConn)} {s : List UInt8}
    {free : Nat} (hnb : ∀ h, readHead s ≠ .error (.body h))
    (hout : HeadOutcome fs res s free (readHead s)) :
    ∃ code c, res = .ok (code, c) ∧ observe (code, c) = .ok (answer fs (readHead s)) ∧
      ((code ≠ .noRequest ∧ ∃ v, readHead s = .error v) ∨
        (code = .noRequest ∧ ∃ h, Tracks c s h free)) := by
  cases hread : readHead s with
  | ok st =>
    rw [hread] at hout
    obtain ⟨c, rfl, ht⟩ := hout
    exact ⟨.noRequest, c, rfl, observe_shows _ ht.shows, Or.inr ⟨rfl, _, ht⟩⟩
  | error v =>
    rw [hread] at hout
    cases v with
    | stuck h =>
      obtain ⟨c, rfl, ht⟩ := hout
      exact ⟨.noRequest, c, rfl, observe_shows _ ht.shows, Or.inr ⟨rfl, _, ht⟩⟩
    | reject h =>
      obtain ⟨c, rfl, hs⟩ := hout
      exact ⟨.badRequest, c, rfl, observe_shows _ hs, Or.inl ⟨by simp, _, rfl⟩⟩
    | request h =>
      obtain ⟨c, rfl, hs, hreal⟩ := hout
      obtain ⟨url, hurl⟩ := readHead_request_url hread
      have hstr := hs.url
      rw [hurl] at hstr
      obtain ⟨m, st, a, hdo, -⟩ := doRequest_eq fs hstr (by rw [hreal]; exact terminated_zeros _)
      refine ⟨_, _, hdo, ?_, Or.inl ⟨requestCode_ne_noRequest fs url, _, rfl⟩⟩
      have hs' : Shows c.mReadBuf { c with mRealFile := m, mFileStat := st, mFileAddress := a } h :=
        ⟨hs.url, hs.host, hs.linger, hs.contentLength, hs.checkState⟩
      rw [observe_shows _ hs', answer, hurl]
      rfl
    | body h => exact absurd hread (hnb h)

/-- The calls after the chunks that a connection has not received yet. -/
theorem readChunks_answer (fs : FileSystem) (chunks : List (List UInt8)) : ∀ (c : HttpConn)
    (s : List UInt8) (h : HeadState) (free : Nat), Tracks c s h free →
    observe (.noRequest, c) = .ok (answer fs (readHead s)) → chunks.flatten.length ≤ free →
    (∀ h, readHead (s ++ chunks.flatten) ≠ .error (.body h)) →
    (c.readChunks fs chunks >>= observe) = .ok (answer fs (readHead (s ++ chunks.flatten))) := by
  induction chunks with
  | nil =>
    intro c s h free _ hobs _ _
    simpa [HttpConn.readChunks] using hobs
  | cons data rest ih =>
    intro c s h free ht _ hfree hnb
    simp only [List.flatten_cons, List.length_append] at hfree hnb
    obtain ⟨c', hreceive, hout⟩ := processRead_head fs data ht (by omega)
    have hnb' : ∀ h, readHead (s ++ data) ≠ .error (.body h) := by
      intro h hbody
      refine hnb h ?_
      rw [← List.append_assoc]
      exact feed_append_error headReader rest.flatten hbody
    obtain ⟨code, c₁, hres, hobs, hstop | ⟨rfl, h₁, ht₁⟩⟩ := outcome_answer hnb' hout
    · obtain ⟨hcode, v, hv⟩ := hstop
      rw [HttpConn.readChunks, hreceive, ok_bind, hres, ok_bind]
      simp only [hcode, if_false]
      rw [List.flatten_cons, ← List.append_assoc, readHead, feed_append_error headReader _ hv, ← hv]
      exact hobs
    · rw [HttpConn.readChunks, hreceive, ok_bind, hres, ok_bind]
      simp only [if_true]
      rw [List.flatten_cons, ← List.append_assoc]
      refine ih c₁ (s ++ data) h₁ _ ht₁ hobs (by omega) ?_
      simpa using hnb

/-- A stream whose first line is rejected gets `BAD_REQUEST`. -/
theorem readChunks_rejected (fs : FileSystem) (c : HttpConn) {chunks : List (List UInt8)}
    (hsize : chunks.flatten.length ≤ readBufferSize) {h : HeadState}
    (hread : readHead chunks.flatten = .error (.reject h)) :
    ∃ c', c.init.readChunks fs chunks = .ok (.badRequest, c') := by
  have hinit : observe (.noRequest, c.init) = .ok (answer fs (readHead [])) :=
    observe_shows _ (tracks_init c).shows
  have hall := readChunks_answer fs chunks c.init [] HeadState.init readBufferSize (tracks_init c)
    hinit hsize (by
      rw [List.nil_append, hread]
      intro h' hbody
      cases hbody)
  rw [List.nil_append, hread] at hall
  obtain ⟨⟨code, c'⟩, hchunks, hobs⟩ := bind_eq_ok.mp hall
  obtain ⟨url, -, hobs⟩ := bind_eq_ok.mp hobs
  obtain ⟨host, -, hobs⟩ := bind_eq_ok.mp hobs
  obtain rfl : code = .badRequest := congrArg Observation.ret (Except.ok.inj hobs)
  exact ⟨c', hchunks⟩

/-- For a stream that announces no body, the result of the last call, the strings `m_url` and
`m_host`, `m_linger` and `m_check_state` are the same for every way of cutting the stream as
for one call on the whole of it. -/
theorem readChunks_split (fs : FileSystem) (c : HttpConn) (s : List UInt8)
    (chunks : List (List UInt8)) (hsize : s.length < readBufferSize) (hbody : AnnouncesNoBody s)
    (hsplit : chunks.flatten = s) :
    ∃ o, (c.init.readChunks fs chunks >>= observe) = .ok o ∧
      (readWhole fs c.init s >>= observe) = .ok o := by
  have hinit : observe (.noRequest, c.init) = .ok (answer fs (readHead [])) :=
    observe_shows _ (tracks_init c).shows
  refine ⟨answer fs (readHead s), ?_, ?_⟩
  · have h := readChunks_answer fs chunks c.init [] HeadState.init readBufferSize (tracks_init c)
      hinit (by rw [hsplit]; omega) (by rw [hsplit]; exact hbody.not_body)
    rwa [hsplit] at h
  · obtain ⟨c', hreceive, hout⟩ := processRead_head fs s (tracks_init c) (by omega)
    rw [List.nil_append] at hout
    obtain ⟨code, c₁, hres, hobs, -⟩ := outcome_answer hbody.not_body hout
    rw [readWhole, hreceive, ok_bind, hres, ok_bind, hobs]

/-- A stream announces no body when no prefix of it does. -/
theorem announcesNoBody_of_forall_lt {s : List UInt8} (h : ∀ n < s.length + 1,
    (match readHead (s.take n) with
      | .ok st => st.ctl.contentLength
      | .error _ => 0) = 0) : AnnouncesNoBody s := by
  intro n st hst
  have htake : s.take n = s.take (min n s.length) := by
    rw [List.take_eq_take_iff]
    omega
  have hn := h (min n s.length) (by omega)
  rw [← htake, hst] at hn
  exact hn

set_option maxRecDepth 100000 in
/-- A request cut inside its line endings. -/
theorem readChunks_split_get :
    ∃ o, ((default : HttpConn).init.readChunks default
        [bytes "GET\t/a\tHTTP/1.1\r", bytes "\nHost:", bytes "b\r\n\r", bytes "\n"] >>= observe) =
        .ok o ∧
      (readWhole default (default : HttpConn).init (bytes "GET\t/a\tHTTP/1.1\r\nHost:b\r\n\r\n") >>=
        observe) = .ok o := by
  refine readChunks_split default default (bytes "GET\t/a\tHTTP/1.1\r\nHost:b\r\n\r\n") _
    (by decide) (announcesNoBody_of_forall_lt ?_) (by decide)
  decide

end ServerListings.Analysis.HeaderSegmentation
