import ServerListings.Interface.ReplyText

/-!
# When a response is sent exactly once

`write` passes the whole `m_iv` to every `writev`, counts the header only, and forgets its
counters when it returns to wait. So a second `writev` that accepts anything repeats the
start of the response, and a first one that takes half of the header ends the sending. The
socket gets the response exactly once precisely when the first `writev` that accepts
anything takes all of it, or so little that nothing follows (`sent_once_iff`).
-/

set_option autoImplicit false

namespace ServerListings.Analysis.ResponseOnce

open Lib.CMem ServerListings.Model.Http ServerListings.Interface

/-- The calls of `write` that `EPOLLOUT` events bring about, at most `calls` of them: where the
last one stands, and what the socket has accepted. -/
def respond (mapped : Int → List UInt8) : Nat → HttpConn → List WritevResult → WriteEnd × List UInt8
  | 0, _, _ => (.waiting, [])
  | calls + 1, c, ws =>
    let call := c.write mapped ws
    if call.ending = .waiting then
      let later := respond mapped calls call.conn call.rest
      (later.1, call.sent ++ later.2)
    else
      (call.ending, call.sent)

/-- The bytes of a prepared response: the header, and the file when the answer is one. -/
def response (mapped : Int → List UInt8) (ret : HttpCode) (c : HttpConn) : List UInt8 :=
  c.mWriteBuf.take c.mWriteIdx ++ if ret = .fileRequest then mapped c.mFileAddress else []

/-- At every moment of the run the socket has accepted a beginning of the response, and when
`write` takes the response to be sent, all of it. -/
def SentOnce (mapped : Int → List UInt8) (ret : HttpCode) (c : HttpConn) (ws : List WritevResult) :
    Prop :=
  ∀ calls ws', ws' <+: ws →
    (respond mapped calls c ws').2 <+: response mapped ret c ∧
    ((respond mapped calls c ws').1 = .finished →
      (respond mapped calls c ws').2 = response mapped ret c)

/-- No `writev` accepts anything before one fails. -/
def Silent : List WritevResult → Prop
  | [] => True
  | .eagain :: ws => Silent ws
  | .error :: _ => True
  | .accepted _ :: _ => False

/-- The first `writev` that accepts anything takes all `n` bytes, or less than half of the `h`
bytes of the header, and then nothing is accepted any more. -/
def OneWrite (h n : Nat) : List WritevResult → Prop
  | [] => True
  | .eagain :: ws => OneWrite h n ws
  | .error :: _ => True
  | .accepted k :: ws => k = n ∨ (2 * k < h ∧ Silent ws)

/-- The results `writev` can have for a response of `n` bytes. -/
def Possible (n : Nat) (ws : List WritevResult) : Prop :=
  ∀ k, .accepted k ∈ ws → 1 ≤ k ∧ k ≤ n

/-! ## One call -/

/-- `m_iv` describes the whole response after `process_write`. -/
theorem iovBytes_prepared {mapped : Int → List UInt8} {ret : HttpCode} {c : HttpConn}
    (hp : Prepared ret c)
    (hmap : ret = .fileRequest → (mapped c.mFileAddress).length = c.mFileStat.stSize) :
    c.iovBytes mapped = response mapped ret c := by
  unfold HttpConn.iovBytes response
  by_cases hret : ret = .fileRequest
  · obtain ⟨hcount, hiv1⟩ := hp.file hret
    simp [hcount, hiv1, hp.iv0, HttpConn.iovecBytes, hret, ← hmap hret]
  · simp [hp.page hret, hp.iv0, HttpConn.iovecBytes, hret]

section Run

variable {mapped : Int → List UInt8} {c : HttpConn} {R : List UInt8} {h n : Nat}

/-- After results that are silent a call has sent nothing, does not take the response to be
sent, and returns to wait with the connection as it was. -/
theorem writeLoop_silent (mapped : Int → List UInt8) (c : HttpConn) (a b : Int) {ws : List WritevResult} (hs : Silent ws) :
    (c.writeLoop mapped a b ws).sent = [] ∧ (c.writeLoop mapped a b ws).ending ≠ .finished ∧
      ((c.writeLoop mapped a b ws).ending = .waiting →
        (c.writeLoop mapped a b ws).conn = c ∧ Silent (c.writeLoop mapped a b ws).rest) := by
  match ws, hs with
  | [], _ => exact ⟨rfl, by simp [HttpConn.writeLoop], by simp [HttpConn.writeLoop]⟩
  | .eagain :: ws, hs => exact ⟨rfl, by simp [HttpConn.writeLoop], fun _ => ⟨rfl, hs⟩⟩
  | .error :: ws, _ => exact ⟨rfl, by simp [HttpConn.writeLoop], by simp [HttpConn.writeLoop]⟩

/-- `write` comes to its loop when there is something to write. -/
theorem write_of_pos (hidx : c.mWriteIdx ≠ 0) (ws : List WritevResult) :
    c.write mapped ws = c.writeLoop mapped c.mWriteIdx 0 ws := by
  rw [HttpConn.write, if_neg hidx]

/-- While no byte is taken nothing is sent. -/
theorem respond_silent (mapped : Int → List UInt8) (hidx : c.mWriteIdx ≠ 0) (calls : Nat) : ∀ ws : List WritevResult, Silent ws →
    (respond mapped calls c ws).2 = [] ∧ (respond mapped calls c ws).1 ≠ .finished := by
  induction calls with
  | zero =>
    intro ws _
    exact ⟨rfl, by simp [respond]⟩
  | succ calls ih =>
    intro ws hs
    obtain ⟨hsent, hend, hwait⟩ := writeLoop_silent mapped c c.mWriteIdx 0 hs
    rw [respond, write_of_pos hidx]
    simp only
    split
    · rename_i h0
      obtain ⟨hconn, hrest⟩ := hwait h0
      rw [hconn, hsent]
      exact ih _ hrest
    · exact ⟨hsent, hend⟩

/-- An `EAGAIN` at the start of a call costs one call. -/
theorem respond_eagain (hidx : c.mWriteIdx ≠ 0) (calls : Nat) (ws : List WritevResult) :
    respond mapped (calls + 1) c (.eagain :: ws) = respond mapped calls c ws := by
  rw [respond, write_of_pos hidx]
  rfl

/-- An error ends the response. -/
theorem respond_error (hidx : c.mWriteIdx ≠ 0) (calls : Nat) (ws : List WritevResult) :
    respond mapped (calls + 1) c (.error :: ws) = (.failed, []) := by
  rw [respond, write_of_pos hidx]
  rfl

/-- A first `writev` that takes half of the header ends the sending. -/
theorem respond_finish (hR : c.iovBytes mapped = R) (hidx : c.mWriteIdx ≠ 0) {k : Nat}
    (hk : c.mWriteIdx ≤ 2 * k) (calls : Nat) (ws : List WritevResult) :
    respond mapped (calls + 1) c (.accepted k :: ws) = (.finished, R.take k) := by
  have hhalf : (c.mWriteIdx : Int) - k ≤ 0 + k := by omega
  rw [respond, write_of_pos hidx, HttpConn.writeLoop]
  simp only [hhalf, if_true, hR, reduceCtorEq, if_false]

/-- A first `writev` that takes less than that is followed by the rest of the results. -/
theorem respond_part (hR : c.iovBytes mapped = R) (hidx : c.mWriteIdx ≠ 0) {k : Nat}
    (hk : 2 * k < c.mWriteIdx) (calls : Nat) (ws : List WritevResult) :
    ∃ a b : Int, respond mapped (calls + 1) c (.accepted k :: ws) =
      let call := c.writeLoop mapped a b ws
      if call.ending = .waiting then
        let later := respond mapped calls call.conn call.rest
        (later.1, R.take k ++ call.sent ++ later.2)
      else
        (call.ending, R.take k ++ call.sent) := by
  have hhalf : ¬ (c.mWriteIdx : Int) - k ≤ 0 + k := by omega
  refine ⟨c.mWriteIdx - k, 0 + k, ?_⟩
  rw [respond, write_of_pos hidx, HttpConn.writeLoop]
  simp only [hhalf, if_false, hR]

/-! ## The condition is enough -/

/-- The first results are silent if all are. -/
theorem Silent.of_initial {ws ws' : List WritevResult} (hpre : ws' <+: ws) (hs : Silent ws) :
    Silent ws' := by
  induction ws' generalizing ws with
  | nil => trivial
  | cons w ws' ih =>
    obtain ⟨rest, rfl⟩ := hpre
    cases w with
    | eagain => exact ih (List.prefix_append ws' rest) hs
    | error => trivial
    | accepted k => exact hs

/-- The first results are those of one write if all are. -/
theorem OneWrite.of_initial {ws ws' : List WritevResult} (hpre : ws' <+: ws) (hs : OneWrite h n ws) :
    OneWrite h n ws' := by
  induction ws' generalizing ws with
  | nil => trivial
  | cons w ws' ih =>
    obtain ⟨rest, rfl⟩ := hpre
    cases w with
    | eagain => exact ih (List.prefix_append ws' rest) hs
    | error => trivial
    | accepted k => exact hs.imp id fun hp => ⟨hp.1, hp.2.of_initial (List.prefix_append ws' rest)⟩

/-- Under the condition the socket accepts a beginning of the response, and all of it when
`write` takes it to be sent. The induction is on the results. -/
theorem sent_of_oneWrite (hR : c.iovBytes mapped = R) (hidx : c.mWriteIdx ≠ 0)
    (hle : c.mWriteIdx ≤ R.length) (ws : List WritevResult) : ∀ calls,
    OneWrite c.mWriteIdx R.length ws →
    (respond mapped calls c ws).2 <+: R ∧
      ((respond mapped calls c ws).1 = .finished → (respond mapped calls c ws).2 = R) := by
  induction ws with
  | nil =>
    intro calls _
    obtain ⟨hsent, hend⟩ := respond_silent mapped hidx calls [] trivial
    rw [hsent]
    exact ⟨List.nil_prefix, fun h0 => absurd h0 hend⟩
  | cons w ws ih =>
    intro calls hone
    cases calls with
    | zero => exact ⟨List.nil_prefix, by simp [respond]⟩
    | succ calls =>
      cases w with
      | eagain =>
        rw [respond_eagain hidx]
        exact ih calls hone
      | error =>
        rw [respond_error hidx]
        exact ⟨List.nil_prefix, by simp⟩
      | accepted k =>
        rcases hone with rfl | ⟨hk, hsilent⟩
        · rw [respond_finish hR hidx (by omega), List.take_length]
          exact ⟨List.prefix_refl R, fun _ => rfl⟩
        · obtain ⟨a, b, hpart⟩ := respond_part hR hidx hk calls ws
          obtain ⟨hsent, hend, hwait⟩ := writeLoop_silent mapped c a b hsilent
          rw [hpart]
          simp only
          split
          · rename_i h0
            obtain ⟨hconn, hrest⟩ := hwait h0
            obtain ⟨hlater, hend'⟩ := respond_silent mapped hidx calls _ hrest
            rw [hconn, hsent, hlater, List.append_nil, List.append_nil]
            exact ⟨List.take_prefix k R, fun h1 => absurd h1 hend'⟩
          · rw [hsent, List.append_nil]
            exact ⟨List.take_prefix k R, fun h1 => absurd h1 hend⟩

/-! ## The condition is necessary -/

/-- Where something is accepted, some calls on some of the results send a beginning of the
response. -/
theorem respond_of_not_silent (hR : c.iovBytes mapped = R) (hidx : c.mWriteIdx ≠ 0)
    {ws : List WritevResult} (hns : ¬ Silent ws) :
    ∃ ws' k calls, ws' <+: ws ∧ .accepted k ∈ ws ∧ (respond mapped calls c ws').2 = R.take k := by
  induction ws with
  | nil => exact absurd trivial hns
  | cons w ws ih =>
    cases w with
    | eagain =>
      obtain ⟨ws', k, calls, hpre, hmem, hsent⟩ := ih hns
      refine ⟨.eagain :: ws', k, calls + 1, List.cons_prefix_cons.mpr ⟨rfl, hpre⟩,
        List.mem_cons_of_mem _ hmem, ?_⟩
      rw [respond_eagain hidx, hsent]
    | error => exact absurd trivial hns
    | accepted k =>
      refine ⟨[.accepted k], k, 1, List.cons_prefix_cons.mpr ⟨rfl, List.nil_prefix⟩, by simp, ?_⟩
      by_cases hk : c.mWriteIdx ≤ 2 * k
      · rw [respond_finish hR hidx hk]
      · obtain ⟨a, b, hpart⟩ := respond_part hR hidx (Nat.not_le.mp hk) 0 []
        rw [hpart]
        simp [HttpConn.writeLoop]

/-- The same for the results that a running call still has before it. -/
theorem writeLoop_of_not_silent (hR : c.iovBytes mapped = R) (hidx : c.mWriteIdx ≠ 0)
    {ws : List WritevResult} (hns : ¬ Silent ws) :
    ∃ ws' k calls, ws' <+: ws ∧ .accepted k ∈ ws ∧ ∀ a b : Int,
      (c.writeLoop mapped a b ws').sent ++
        (if (c.writeLoop mapped a b ws').ending = .waiting then
          (respond mapped calls (c.writeLoop mapped a b ws').conn
            (c.writeLoop mapped a b ws').rest).2 else []) = R.take k := by
  cases ws with
  | nil => exact absurd trivial hns
  | cons w ws =>
    cases w with
    | eagain =>
      obtain ⟨ws', k, calls, hpre, hmem, hsent⟩ := respond_of_not_silent hR hidx (show ¬ Silent ws from hns)
      refine ⟨.eagain :: ws', k, calls, List.cons_prefix_cons.mpr ⟨rfl, hpre⟩,
        List.mem_cons_of_mem _ hmem, ?_⟩
      intro a b
      simpa [HttpConn.writeLoop] using hsent
    | error => exact absurd trivial hns
    | accepted k =>
      refine ⟨[.accepted k], k, 0, List.cons_prefix_cons.mpr ⟨rfl, List.nil_prefix⟩, by simp, ?_⟩
      intro a b
      rw [HttpConn.writeLoop]
      split
      · simp [hR]
      · simp [HttpConn.writeLoop, hR]

/-- A repeated beginning is no continuation, because the first byte of the response does not
occur again in the header. -/
theorem not_prefix_of_repeated {k j : Nat} (hone : OneH (R.take h)) (hk : 1 ≤ k) (hkh : k < h)
    (hh : h ≤ R.length) (hj : 1 ≤ j) : ¬ R.take k ++ R.take j <+: R := by
  intro hpre
  obtain ⟨t, ht, hnot⟩ := hone
  have hfirst : R[0]? = some H := by
    have h0 : (R.take h)[0]? = some H := by rw [ht]; rfl
    rwa [List.getElem?_take_of_lt (by omega)] at h0
  have hklen : (R.take k).length = k := List.length_take_of_le (by omega)
  have hjlen : (R.take j).length = min j R.length := List.length_take
  have hrepeat : (R.take k ++ R.take j)[k]? = some H := by
    rw [List.getElem?_append_right (by omega), hklen, Nat.sub_self,
      List.getElem?_take_of_lt (by omega), hfirst]
  have hagain : R[k]? = some H := by
    have hlt : k < (R.take k ++ R.take j).length := by
      rw [List.length_append]
      omega
    obtain ⟨r, hr⟩ := hpre
    rw [← hr, List.getElem?_append_left hlt, hrepeat]
  have hin : (R.take h)[k]? = some H := by rw [List.getElem?_take_of_lt hkh, hagain]
  obtain ⟨k, rfl⟩ : ∃ i, k = i + 1 := ⟨k - 1, by omega⟩
  rw [ht, List.getElem?_cons_succ] at hin
  exact hnot (List.mem_of_getElem? hin)

/-- Where every moment of every run sends the response exactly once, the condition holds. -/
theorem oneWrite_of_sent (hR : c.iovBytes mapped = R) (hidx : c.mWriteIdx ≠ 0)
    (hle : c.mWriteIdx ≤ R.length) (hone : OneH (R.take c.mWriteIdx)) (ws : List WritevResult) :
    Possible R.length ws →
    (∀ calls ws', ws' <+: ws → (respond mapped calls c ws').2 <+: R ∧
      ((respond mapped calls c ws').1 = .finished → (respond mapped calls c ws').2 = R)) →
    OneWrite c.mWriteIdx R.length ws := by
  induction ws with
  | nil =>
    intro _ _
    trivial
  | cons w ws ih =>
    intro hposs hsent
    cases w with
    | eagain =>
      refine ih (fun k hk => hposs k (List.mem_cons_of_mem _ hk)) ?_
      intro calls ws' hpre
      have hlater := hsent (calls + 1) (.eagain :: ws') (List.cons_prefix_cons.mpr ⟨rfl, hpre⟩)
      rwa [respond_eagain hidx] at hlater
    | error => trivial
    | accepted k =>
      obtain ⟨hk1, hkn⟩ := hposs k (by simp)
      by_cases hk : c.mWriteIdx ≤ 2 * k
      · have hfinish := (hsent 1 [.accepted k] (List.cons_prefix_cons.mpr ⟨rfl, List.nil_prefix⟩)).2
        rw [respond_finish hR hidx hk] at hfinish
        have hall := congrArg List.length (hfinish rfl)
        rw [List.length_take] at hall
        exact Or.inl (by omega)
      · refine Or.inr ⟨Nat.not_le.mp hk, ?_⟩
        by_contra hns
        obtain ⟨ws', j, calls, hpre, hmem, hrest⟩ := writeLoop_of_not_silent hR hidx hns
        obtain ⟨a, b, hpart⟩ := respond_part hR hidx (Nat.not_le.mp hk) calls ws'
        have hrun := (hsent (calls + 1) (.accepted k :: ws')
          (List.cons_prefix_cons.mpr ⟨rfl, hpre⟩)).1
        have hj := (hposs j (List.mem_cons_of_mem _ hmem)).1
        have htwice : (respond mapped (calls + 1) c (.accepted k :: ws')).2 =
            R.take k ++ R.take j := by
          rw [hpart, ← hrest a b]
          simp only
          split <;> simp
        rw [htwice] at hrun
        exact not_prefix_of_repeated hone hk1 (by omega) hle hj hrun

end Run

/-- A response that `process_write` prepared in a cleared write buffer is sent exactly once
precisely when the first `writev` that accepts anything takes all of it, or less than half of
the header with nothing accepted after it. -/
theorem sent_once_iff (mapped : Int → List UInt8) {c₀ c : HttpConn} {ret : HttpCode}
    (hclear : Written c₀ []) (hwrite : c₀.processWrite ret = .ok (true, c))
    (hmap : ret = .fileRequest → (mapped c.mFileAddress).length = c.mFileStat.stSize)
    (ws : List WritevResult) (hposs : Possible (response mapped ret c).length ws) :
    SentOnce mapped ret c ws ↔ OneWrite c.mWriteIdx (response mapped ret c).length ws := by
  have hp := processWrite_prepared hclear hwrite
  have hR := iovBytes_prepared hp hmap
  have hheader : (response mapped ret c).take c.mWriteIdx = c.mWriteBuf.take c.mWriteIdx := by
    rw [response, List.take_append_of_le_length (Nat.le_of_eq hp.length.symm), List.take_take,
      Nat.min_self]
  have hle : c.mWriteIdx ≤ (response mapped ret c).length := by
    rw [response, List.length_append, hp.length]
    exact Nat.le_add_right _ _
  have hidx : c.mWriteIdx ≠ 0 := by
    obtain ⟨t, ht, -⟩ := hp.header
    rw [← hp.length, ht]
    simp
  constructor
  · exact oneWrite_of_sent hR hidx hle (hheader.symm ▸ hp.header) ws hposs
  · intro hone calls ws' hpre
    exact sent_of_oneWrite hR hidx hle ws' calls (hone.of_initial hpre)

/-! ## A file of one byte -/

/-- A connection that has found a file of one byte. -/
def oneByteFile : HttpConn :=
  { (default : HttpConn).init with
    mFileAddress := 4096
    mFileStat := ⟨0o100644, 1⟩ }

/-- The memory with that file. -/
def oneByteMemory (address : Int) : List UInt8 := if address = 4096 then bytes "x" else []

/-- The object of the example has nothing written. -/
theorem oneByteFile_clear : Written oneByteFile [] := ⟨rfl, rfl, by simp [oneByteFile, HttpConn.init]⟩

set_option maxRecDepth 100000 in
/-- The response with a file of one byte. -/
theorem oneByteFile_reply :
    ∃ c, oneByteFile.processWrite .fileRequest = .ok (true, c) ∧
      (oneByteMemory c.mFileAddress).length = c.mFileStat.stSize ∧
      (response oneByteMemory .fileRequest c).length = 58 ∧
      (respond oneByteMemory 1 c [.accepted 57]).1 = .finished ∧
      (respond oneByteMemory 1 c [.accepted 57]).2.length = 57 := by
  have hfacts : ((oneByteFile.processWrite .fileRequest).map fun r =>
      (r.1, (oneByteMemory r.2.mFileAddress).length == r.2.mFileStat.stSize,
        (response oneByteMemory .fileRequest r.2).length,
        (respond oneByteMemory 1 r.2 [.accepted 57]).1,
        (respond oneByteMemory 1 r.2 [.accepted 57]).2.length)) =
      .ok (true, true, 58, .finished, 57) := by decide
  cases hwrite : oneByteFile.processWrite .fileRequest with
  | error e =>
    rw [hwrite] at hfacts
    cases hfacts
  | ok r =>
    obtain ⟨ok, c⟩ := r
    rw [hwrite] at hfacts
    obtain ⟨rfl, hrest⟩ : ok = true ∧ _ := by simpa [Except.map] using hfacts
    exact ⟨c, rfl, hrest⟩

/-- The response is taken over in one piece, after a wait. -/
theorem sent_once_iff_wait :
    ∃ c, oneByteFile.processWrite .fileRequest = .ok (true, c) ∧
      (SentOnce oneByteMemory .fileRequest c [.eagain, .accepted 58] ↔
        OneWrite c.mWriteIdx (response oneByteMemory .fileRequest c).length
          [.eagain, .accepted 58]) := by
  obtain ⟨c, hwrite, hfile, hlen, -⟩ := oneByteFile_reply
  refine ⟨c, hwrite, sent_once_iff oneByteMemory oneByteFile_clear hwrite (fun _ => hfile) _ ?_⟩
  intro k hk
  obtain rfl : k = 58 := by simpa using hk
  omega

/-- A socket that takes the 57 bytes of the header ends the sending before the file. -/
theorem file_not_sent :
    ¬ ∀ (mapped : Int → List UInt8) (c₀ c : HttpConn) (ret : HttpCode), Written c₀ [] →
      c₀.processWrite ret = .ok (true, c) →
      (ret = .fileRequest → (mapped c.mFileAddress).length = c.mFileStat.stSize) →
      ∀ ws, Possible (response mapped ret c).length ws → SentOnce mapped ret c ws := by
  intro hall
  obtain ⟨c, hwrite, hfile, hlen, hend, hsent⟩ := oneByteFile_reply
  have honce := hall oneByteMemory oneByteFile c .fileRequest oneByteFile_clear hwrite
    (fun _ => hfile) [.accepted 57] (by
      intro k hk
      obtain rfl : k = 57 := by simpa using hk
      omega)
  have hfull := congrArg List.length ((honce 1 _ (List.prefix_refl _)).2 hend)
  omega

end ServerListings.Analysis.ResponseOnce
