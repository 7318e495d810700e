import ServerListings.Interface.HandlerEffects
import ServerListings.Model.ServerLog

/-!
# The mapping that a connection object holds

`held` is the mapping that an object believes to hold: what `unmap` would give back. `read`
leaves it alone, `write` keeps it to wait for room in the socket and gives it back otherwise,
and `process` takes one when it is asked for a file.
-/

set_option autoImplicit false

namespace ServerListings.Interface

open Lib.CMem ServerListings.Model ServerListings.Model.Http ServerListings.Model.WebServer

/-- The address and the length that `unmap` would use. -/
def held (c : HttpConn) : Option (Int × Nat) :=
  if c.mFileAddress = 0 then none else some (c.mFileAddress, c.mFileStat.stSize)

/-- The call of `munmap` that gives a mapping back. -/
def giveBack (fd : Int) : Option (Int × Nat) → List Mapping
  | none => []
  | some m => [.munmap fd m.1 m.2]

section Object

variable {fd : Int} {c c' : HttpConn} {effects : List Effect}

/-- An object without an address holds no mapping. -/
theorem held_eq_none : held c = none ↔ c.mFileAddress = 0 := by
  unfold held
  split
  · simp [*]
  · simp [*]

/-- An object with an address holds the mapping there. -/
theorem held_of_ne (h : c.mFileAddress ≠ 0) : held c = some (c.mFileAddress, c.mFileStat.stSize) :=
  if_neg h

/-- The mappings that two lists of effects give back. -/
theorem unmaps_append (fd : Int) (a b : List Effect) : unmaps fd (a ++ b) = unmaps fd a ++ unmaps fd b :=
  List.filterMap_append

/-- `modfd` gives no mapping back. -/
theorem unmaps_modfd (x : Int) (i : Interest) : unmaps fd (modfd x i) = [] := rfl

/-- `close_conn` gives no mapping back. -/
theorem unmaps_closeConn (c : HttpConn) : unmaps fd c.closeConn.2 = [] := by
  unfold HttpConn.closeConn
  split <;> rfl

/-- `close_conn` does not give the mapping back. -/
theorem held_closeConn (c : HttpConn) : held c.closeConn.1 = held c := by
  unfold HttpConn.closeConn
  split <;> rfl

/-- After `unmap` nothing is held. -/
theorem held_unmap (c : HttpConn) : held c.unmap.1 = none := by
  unfold HttpConn.unmap
  split
  · rfl
  · exact held_eq_none.mpr (not_not.mp ‹_›)

/-- `unmap` gives back what is held. -/
theorem unmaps_unmap (fd : Int) (c : HttpConn) : unmaps fd c.unmap.2 = giveBack fd (held c) := by
  unfold HttpConn.unmap held
  by_cases h : c.mFileAddress = 0
  · rw [if_neg (not_not_intro h), if_pos h]
    rfl
  · rw [if_pos h, if_neg h]
    rfl

/-- The same address and the same size. -/
theorem held_congr (h : replySide c' = replySide c) : held c' = held c := by
  have haddress := congrArg ReplySide.fileAddress h
  have hstat := congrArg ReplySide.fileStat h
  unfold held
  rw [show c'.mFileAddress = c.mFileAddress from haddress, show c'.mFileStat = c.mFileStat from hstat]

/-- What changes the reply only leaves the mapping alone. -/
theorem OnlyReply.held (h : OnlyReply c c') : held c' = held c := by
  obtain ⟨m, i, iv₀, iv₁, n, rfl⟩ := h
  rfl

/-! ## Writing -/

/-- A call of `write` that returns: it waits for room in the socket and the object is as it
was, or the mapping has been given back. -/
inductive Wrote (fd : Int) (c : HttpConn) (call : WriteCall) : Bool → Prop
  | waits (hconn : call.conn = c) (heff : call.effects = modfd c.mSockfd .epollout) :
      Wrote fd c call true
  | ends {ok : Bool} (hconn : held call.conn = none)
      (heff : unmaps fd call.effects = giveBack fd (held c)) : Wrote fd c call ok

/-- The last statements of `write` give the mapping back. -/
theorem finishWrite_wrote (fd : Int) (c : HttpConn) (sent : List UInt8) (rest : List WritevResult)
    (ok : Bool) :
    Wrote fd c ⟨.finished, some c.finishWrite.1, c.finishWrite.2.1, c.finishWrite.2.2, sent, rest⟩
      ok := by
  unfold HttpConn.finishWrite
  by_cases hl : c.unmap.1.mLinger = true
  · simp only [if_pos hl]
    refine .ends (held_unmap c) ?_
    rw [unmaps_append, unmaps_unmap, unmaps_modfd, List.append_nil]
  · simp only [if_neg hl]
    refine .ends (held_unmap c) ?_
    rw [unmaps_append, unmaps_unmap, unmaps_modfd, List.append_nil]

/-- The loop of `write` gives the mapping back when it is through, and keeps it otherwise. -/
theorem writeLoop_wrote (fd : Int) (mapped : Int → List UInt8) (c : HttpConn) (ws : List WritevResult) :
    ∀ (toSend haveSent : Int) (ok : Bool), (c.writeLoop mapped toSend haveSent ws).ret = some ok →
      Wrote fd c (c.writeLoop mapped toSend haveSent ws) ok := by
  induction ws with
  | nil =>
    intro toSend haveSent ok hret
    cases hret
  | cons r ws ih =>
    intro toSend haveSent ok hret
    cases r with
    | eagain =>
      obtain rfl := Option.some.inj hret
      exact .waits rfl rfl
    | error => exact .ends (held_unmap c) (unmaps_unmap fd c)
    | accepted k =>
      unfold HttpConn.writeLoop at hret ⊢
      by_cases hdone : toSend - k ≤ haveSent + k
      · simp only [if_pos hdone] at hret ⊢
        exact finishWrite_wrote fd c _ _ ok
      · simp only [if_neg hdone] at hret ⊢
        cases ih _ _ ok hret with
        | waits hconn heff => exact .waits hconn heff
        | ends hconn heff => exact .ends hconn heff

/-- `write` returns early on an object without a response, so such an object must not hold a
mapping. -/
theorem write_wrote (fd : Int) (mapped : Int → List UInt8) (ws : List WritevResult) {ok : Bool}
    (hidx : held c ≠ none → c.mWriteIdx ≠ 0) (hret : (c.write mapped ws).ret = some ok) :
    Wrote fd c (c.write mapped ws) ok := by
  unfold HttpConn.write at hret ⊢
  by_cases hzero : c.mWriteIdx = 0
  · have hnone : held c = none := by
      by_contra hne
      exact hidx hne hzero
    simp only [if_pos hzero]
    refine .ends ?_ ?_
    · exact hnone
    · rw [hnone]
      rfl
  · simp only [if_neg hzero] at hret ⊢
    exact writeLoop_wrote fd mapped c ws _ _ ok hret

/-! ## Processing -/

/-- A text that is not empty leaves the buffer non-empty. -/
theorem addResponse_writeIdx (c : HttpConn) {text : List UInt8} (hpos : 0 < text.length)
    (hshort : text.length < writeBufferSize - 1) :
    Ensures (c.addResponse text) fun r => r.2.mWriteIdx ≠ 0 := by
  have hlimit : writeBufferSize = 1024 := rfl
  unfold HttpConn.addResponse
  by_cases hfull : c.mWriteIdx ≥ writeBufferSize
  · rw [if_pos hfull]
    refine ensures_pure ?_
    show c.mWriteIdx ≠ 0
    omega
  · rw [if_neg hfull]
    apply ensures_bind
    intro writeBuf
    by_cases hlong : text.length ≥ writeBufferSize - 1 - c.mWriteIdx
    · simp only [if_pos hlong]
      refine ensures_pure ?_
      show c.mWriteIdx ≠ 0
      omega
    · simp only [if_neg hlong]
      refine ensures_pure ?_
      show c.mWriteIdx + text.length ≠ 0
      omega

/-- Texts are only appended. -/
theorem addResponse_mono (c : HttpConn) (text : List UInt8) :
    Ensures (c.addResponse text) fun r => c.mWriteIdx ≤ r.2.mWriteIdx := by
  apply ensures_ite
  · exact ensures_pure (le_refl _)
  apply ensures_bind
  intro writeBuf
  apply ensures_ite
  · exact ensures_pure (le_refl _)
  · exact ensures_pure (Nat.le_add_right _ _)

/-- `add_headers` takes nothing out of the write buffer. -/
theorem addHeaders_mono (c : HttpConn) (contentLen : Int) :
    Ensures (c.addHeaders contentLen) fun c' => c.mWriteIdx ≤ c'.mWriteIdx := by
  apply (addResponse_mono c _).bind
  rintro ⟨_, c₁⟩ h₁
  apply (addResponse_mono c₁ _).bind
  rintro ⟨_, c₂⟩ h₂
  apply (addResponse_mono c₂ _).bind
  rintro ⟨_, c₃⟩ h₃
  exact ensures_pure (h₁.trans (h₂.trans h₃))

/-- The response with a file is always prepared, whatever fits of its head. -/
theorem processWrite_file (hsize : c.mFileStat.stSize ≠ 0) :
    Ensures (c.processWrite .fileRequest) fun r => r.1 = true ∧ r.2.mWriteIdx ≠ 0 := by
  unfold HttpConn.processWrite
  simp only [if_pos hsize]
  apply (addResponse_writeIdx c (by decide) (by decide)).bind
  rintro ⟨_, c₁⟩ h₁
  apply (addHeaders_mono c₁ _).bind
  intro c₂ h₂
  refine ensures_pure ⟨rfl, ?_⟩
  show c₂.mWriteIdx ≠ 0
  have hidx : c₁.mWriteIdx ≠ 0 := h₁
  omega

/-- `mmap` does not return a null pointer, and refuses the length 0. -/
structure LawfulMmap (fs : FileSystem) : Prop where
  nonnull : ∀ path n, fs.mmap path n ≠ 0
  empty : ∀ path, fs.mmap path 0 = -1

/-- A call of `process` on an object that holds nothing, if no `mmap` fails: it does not map a
file, or the file is held and the response prepared. -/
inductive Processed (fs : FileSystem) (c c' : HttpConn) (effects : List Effect) : Prop
  | plain (hcall : mmapCall fs c = none) (hheld : held c' = none)
  | mapped {a : Int} {n : Nat} (hcall : mmapCall fs c = some (a, n)) (hheld : held c' = some (a, n))
      (hidx : c'.mWriteIdx ≠ 0) (heff : effects = modfd c.mSockfd .epollout)

/-- Where `do_request` finds no file, `mmap` is not called. -/
theorem mmapCall_of_ne {fs : FileSystem} {r : HttpCode × HttpConn} (hread : c.processRead fs = .ok r)
    (hret : r.1 ≠ .fileRequest) : mmapCall fs c = none := by
  obtain ⟨ret, c₁⟩ := r
  rw [mmapCall, hread]
  cases ret with
  | fileRequest => exact absurd rfl hret
  | _ => rfl

/-- `process` gives nothing back. -/
theorem unmaps_process {fs : FileSystem} (hok : c.process fs = .ok (c', effects)) :
    unmaps fd effects = [] := by
  obtain ⟨⟨ret, c₁⟩, -, hok⟩ := bind_eq_ok.mp hok
  by_cases hmore : ret = .noRequest
  · simp only [if_pos hmore] at hok
    obtain ⟨-, rfl⟩ := Prod.mk.inj (Except.ok.inj hok)
    rfl
  · simp only [if_neg hmore] at hok
    obtain ⟨⟨writeRet, c₂⟩, -, hok⟩ := bind_eq_ok.mp hok
    cases writeRet with
    | true =>
      obtain ⟨-, rfl⟩ := Prod.mk.inj (Except.ok.inj hok)
      rfl
    | false =>
      obtain ⟨-, rfl⟩ := Prod.mk.inj (Except.ok.inj hok)
      rw [unmaps_append, unmaps_closeConn, unmaps_modfd, List.append_nil]

/-- A call of `process` that maps no file leaves what `process_read` left. -/
theorem held_process {fs : FileSystem} {r : HttpCode × HttpConn} (hread : c.processRead fs = .ok r)
    (hok : c.process fs = .ok (c', effects)) : held c' = held r.2 := by
  obtain ⟨ret, c₁⟩ := r
  obtain ⟨⟨_, _⟩, hread', hok⟩ := bind_eq_ok.mp hok
  obtain ⟨rfl, rfl⟩ := results_unique hread hread'
  by_cases hmore : ret = .noRequest
  · simp only [if_pos hmore] at hok
    obtain ⟨rfl, -⟩ := Prod.mk.inj (Except.ok.inj hok)
    rfl
  · simp only [if_neg hmore] at hok
    obtain ⟨⟨writeRet, c₂⟩, hwrite, hok⟩ := bind_eq_ok.mp hok
    have hheld : held c₂ = held c₁ := ((processWrite_onlyReply c₁ ret).result hwrite).held
    cases writeRet with
    | true =>
      obtain ⟨rfl, -⟩ := Prod.mk.inj (Except.ok.inj hok)
      exact hheld
    | false =>
      obtain ⟨rfl, -⟩ := Prod.mk.inj (Except.ok.inj hok)
      exact (held_closeConn c₂).trans hheld

/-- A file that is not empty is served. -/
theorem process_file {fs : FileSystem} {c₁ : HttpConn} (hread : c.processRead fs = .ok (.fileRequest, c₁))
    (hsize : c₁.mFileStat.stSize ≠ 0) (hok : c.process fs = .ok (c', effects)) :
    c'.mWriteIdx ≠ 0 ∧ effects = modfd c.mSockfd .epollout := by
  obtain ⟨⟨_, _⟩, hread', hok⟩ := bind_eq_ok.mp hok
  obtain ⟨rfl, rfl⟩ := results_unique hread hread'
  obtain ⟨⟨writeRet, c₂⟩, hwrite, hok⟩ := bind_eq_ok.mp hok
  obtain ⟨rfl, hidx⟩ := (processWrite_file hsize).result hwrite
  have heq : c₂.mSockfd = c.mSockfd := processWrite_socket _ (processRead_socket fs rfl _ hread) _ hwrite
  obtain ⟨rfl, rfl⟩ := Prod.mk.inj (Except.ok.inj hok)
  refine ⟨hidx, ?_⟩
  show modfd c₂.mSockfd .epollout = modfd c.mSockfd .epollout
  rw [heq]

/-- A call of `process` holds what it has mapped. -/
theorem process_processed {fs : FileSystem} (hlaw : LawfulMmap fs) (hnone : held c = none)
    (hmade : ∀ a n, mmapCall fs c = some (a, n) → a ≠ -1) (hok : c.process fs = .ok (c', effects)) :
    Processed fs c c' effects := by
  obtain ⟨r, hread, -⟩ := bind_eq_ok.mp hok
  have hheld := held_process hread hok
  have hplain : r.1 ≠ .fileRequest → held r.2 = none → Processed fs c c' effects := fun hret hr =>
    .plain (mmapCall_of_ne hread hret) (hheld.trans hr)
  cases (processRead_end fs c).result hread with
  | noRequest h => exact hplain nofun ((held_congr h).trans hnone)
  | badRequest h => exact hplain nofun ((held_congr h).trans hnone)
  | @doRequest c₁ _ h hdo =>
    have hzero := held_eq_none.mp ((held_congr h).trans hnone)
    cases (doRequest_sought fs c₁).result hdo with
    | noResource m => exact hplain nofun (held_eq_none.mpr hzero)
    | forbidden m st => exact hplain nofun (held_eq_none.mpr hzero)
    | directory m st => exact hplain nofun (held_eq_none.mpr hzero)
    | file m path st =>
      have hcall : mmapCall fs c = some (fs.mmap path st.stSize, st.stSize) := by
        rw [mmapCall, hread]
      have hsize : st.stSize ≠ 0 := by
        intro h0
        rw [h0] at hcall
        exact hmade _ _ hcall (hlaw.empty path)
      obtain ⟨hidx, heff⟩ := process_file hread hsize hok
      refine .mapped hcall ?_ hidx heff
      rw [hheld]
      exact held_of_ne (hlaw.nonnull path st.stSize)

end Object

end ServerListings.Interface
