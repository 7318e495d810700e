import Mathlib.Data.List.Count
import ServerListings.Lib.SharedRegister
import ServerListings.Model.ChatRelay

/-!
# The steps of the relay as steps on shared registers

For a sender and another client the relay is a register: the segment of the sender, with its
number as the announcement. This file defines the register of a pair of clients in a state and
shows that every step of the relay is a step of the register, if a child clears its segment only
while its number is under way to no other client. The facts about numbers and cleared segments
that this needs are `Numbered`.
-/

set_option autoImplicit false

namespace ServerListings.Interface.Relay

open Lib.SharedRegister ServerListings.Model ServerListings.Model.ChatRelay
open ServerListings.Model.ChatServer (BUFFER_SIZE)

section Registers

variable {C : Type} [DecidableEq C] {p : Clients C} {s s' : State C} {a : Action C} {c d x : C}

/-! ## The register of a pair of clients -/

/-- A chunk with the zeros behind it. -/
def segment (data : List UInt8) : List UInt8 :=
  data ++ List.replicate (BUFFER_SIZE - data.length) 0

/-- What the client of `d` was sent for the notifications of `c`. -/
def sentFrom (p : Clients C) (s : State C) (c d : C) : List (List UInt8) :=
  ((s.children d).sent.filter fun e => e.1 = p.idx c).map Prod.snd

/-- The numbers of `c` that the loop of the parent will still send to `d`. -/
def announcing (p : Clients C) (s : State C) (c d : C) : Nat :=
  match s.broadcast with
  | none => 0
  | some b => if b.child = p.idx c then b.rest.count d else 0

/-- The notifications of `c` that the child of `d` has not answered: not written to the pipe of
`c`, in this pipe, in the loop of the parent, in the pipe of `d`, read by the child of `d`. -/
def inFlight (p : Clients C) (s : State C) (c d : C) : Nat :=
  (if (s.children c).pc = .notify then 1 else 0) + (s.toParent c).count (p.idx c) +
    announcing p s c d + (s.toChild d).count (p.idx c) +
    (if (s.children d).pc = .forward (p.idx c) then 1 else 0)

/-- The segment of `c` as a register between `c` and `d`. -/
def registerOf (p : Clients C) (s : State C) (c d : C) : Register (List UInt8) :=
  { written := (s.children c).received.map segment
    delivered := sentFrom p s c d
    inFlight := inFlight p s c d
    content := s.shareMem (p.idx c)
    unsealed := (s.children c).pc = .cleared }

/-- A child clears its segment only while its number is under way to no other client. -/
def SegmentFree (p : Clients C) (s : State C) (a : Action C) : Prop :=
  ∀ c, a = .clear c → ∀ d, c ≠ d → inFlight p s c d = 0

instance [Fintype C] : ∀ a : Action C, Decidable (SegmentFree p s a)
  | .clear c =>
    decidable_of_iff (∀ d, c ≠ d → inFlight p s c d = 0)
      ⟨fun h _ hc => Action.clear.inj hc ▸ h, fun h => h c rfl⟩
  | .arrive .. | .childWait .. | .recvClient .. | .notify .. | .recvPipe .. | .forward ..
  | .parentWait .. | .parentRecv .. | .parentSend .. => isTrue nofun

/-- The pipes hold the numbers of their children, and a segment that was cleared for `recv` is
zero. -/
structure Numbered (p : Clients C) (s : State C) : Prop where
  upward : ∀ c, ∀ k ∈ s.toParent c, k = p.idx c
  relayed : ∀ b, s.broadcast = some b → b.child = p.idx b.sockfd
  zeroed : ∀ c, (s.children c).pc = .cleared →
    s.shareMem (p.idx c) = List.replicate BUFFER_SIZE 0

/-! ## Changes to one child -/

/-- The child that changes. -/
@[simp] theorem updateChild_self (s : State C) (c : C) (f : Child → Child) :
    (s.updateChild c f).children c = f (s.children c) := Function.update_self ..

/-- Other children stay as they are. -/
theorem updateChild_of_ne (s : State C) (f : Child → Child) (h : x ≠ c) :
    (s.updateChild c f).children x = s.children x := Function.update_of_ne h ..

/-- A change of a child leaves the shared memory alone. -/
@[simp] theorem updateChild_shareMem (s : State C) (c : C) (f : Child → Child) :
    (s.updateChild c f).shareMem = s.shareMem := rfl

/-- A change of a child leaves the pipes to the parent alone. -/
@[simp] theorem updateChild_toParent (s : State C) (c : C) (f : Child → Child) :
    (s.updateChild c f).toParent = s.toParent := rfl

/-- A change of a child leaves the pipes to the children alone. -/
@[simp] theorem updateChild_toChild (s : State C) (c : C) (f : Child → Child) :
    (s.updateChild c f).toChild = s.toChild := rfl

/-- A change of a child leaves the broadcast of the parent alone. -/
@[simp] theorem updateChild_broadcast (s : State C) (c : C) (f : Child → Child) :
    (s.updateChild c f).broadcast = s.broadcast := rfl

/-- The parts of a state that the register of `c` and `d` reads. -/
theorem registerOf_congr (hrec : (s'.children c).received = (s.children c).received)
    (hsent : (s'.children d).sent = (s.children d).sent)
    (hflight : inFlight p s' c d = inFlight p s c d)
    (hmem : s'.shareMem (p.idx c) = s.shareMem (p.idx c))
    (hpc : (s'.children c).pc = .cleared ↔ (s.children c).pc = .cleared) :
    registerOf p s' c d = registerOf p s c d := by
  unfold registerOf sentFrom
  rw [hrec, hsent, hflight, hmem, decide_eq_decide.mpr hpc]

/-- A change to one child that leaves its place in the program and its history. -/
theorem registerOf_updateChild {f : Child → Child} (hpc : ∀ k, (f k).pc = k.pc)
    (hrec : ∀ k, (f k).received = k.received) (hsent : ∀ k, (f k).sent = k.sent) :
    registerOf p (s.updateChild x f) c d = registerOf p s c d := by
  have hpcs (y : C) : ((s.updateChild x f).children y).pc = (s.children y).pc := by
    by_cases hy : y = x
    · rw [hy, updateChild_self, hpc]
    · rw [updateChild_of_ne s f hy]
  apply registerOf_congr
  · by_cases hc : c = x
    · rw [hc, updateChild_self, hrec]
    · rw [updateChild_of_ne s f hc]
  · by_cases hd : d = x
    · rw [hd, updateChild_self, hsent]
    · rw [updateChild_of_ne s f hd]
  · simp only [inFlight, announcing, hpcs, updateChild_toParent, updateChild_toChild,
      updateChild_broadcast]
  · rfl
  · rw [hpcs]

/-! ## The steps of a child -/

/-- New data of a client changes no register. -/
theorem registerOf_arrive {data : List UInt8} :
    registerOf p (s.arrive x data) c d = registerOf p s c d :=
  registerOf_updateChild (fun _ => rfl) (fun _ => rfl) fun _ => rfl

/-- A child that waits changes no register. -/
theorem registerOf_childWait {events : List Source} :
    registerOf p (s.childWait x events) c d = registerOf p s c d :=
  registerOf_updateChild (fun _ => rfl) (fun _ => rfl) fun _ => rfl

/-- A step of another child than the sender that sends nothing to its client. -/
theorem registerOf_foreign (hne : c ≠ x) (hother : ∀ y, y ≠ x → s'.children y = s.children y)
    (hsent : (s'.children x).sent = (s.children x).sent)
    (hpc : (s'.children x).pc = .forward (p.idx c) ↔ (s.children x).pc = .forward (p.idx c))
    (hup : s'.toParent c = s.toParent c) (hdown : s'.toChild = s.toChild)
    (hcast : s'.broadcast = s.broadcast) (hmem : s'.shareMem (p.idx c) = s.shareMem (p.idx c)) :
    registerOf p s' c d = registerOf p s c d := by
  have hc := hother c hne
  by_cases hd : d = x
  · subst hd
    simp [registerOf, sentFrom, inFlight, announcing, hc, hsent, hpc, hup, hdown, hcast, hmem]
  · simp [registerOf, sentFrom, inFlight, announcing, hc, hother d hd, hup, hdown, hcast, hmem]

/-- To clear the segment is a step of the register when no number is on its way. -/
theorem clear_step (hready : (s.children x).pc = .ready)
    (hfree : c = x → inFlight p s c d = 0) (hne : c ≠ d) :
    Step (registerOf p s c d) (registerOf p (s.clear p x) c d) := by
  by_cases hc : c = x
  · subst hc
    refine (Step.clear (List.replicate BUFFER_SIZE 0) (hfree rfl)).to ?_
    simp [registerOf, sentFrom, inFlight, announcing, State.clear, hready,
      updateChild_of_ne s _ hne.symm]
  · have hidx : p.idx c ≠ p.idx x := fun h => hc (p.idx_injective h)
    refine Step.idle.to (registerOf_foreign hc ?_ ?_ ?_ ?_ ?_ ?_ ?_)
    · exact fun y hy => Function.update_of_ne hy ..
    all_goals simp [State.clear, hready, hidx]

/-- A message that is received into a cleared segment is a step of the register. -/
theorem recvClient_step (hcleared : (s.children x).pc = .cleared)
    (hzero : s.shareMem (p.idx x) = List.replicate BUFFER_SIZE 0) (hne : c ≠ d) :
    Step (registerOf p s c d) (registerOf p (s.recvClient p x) c d) := by
  unfold State.recvClient
  by_cases hempty : (s.children x).inbox = []
  · rw [if_pos hempty]
    by_cases hc : c = x
    · subst hc
      refine Step.giveUp.to ?_
      simp [registerOf, sentFrom, inFlight, announcing, hcleared, updateChild_of_ne s _ hne.symm]
    · refine Step.idle.to (registerOf_foreign hc ?_ ?_ ?_ ?_ ?_ ?_ ?_)
      · exact fun y hy => Function.update_of_ne hy ..
      all_goals simp [hcleared]
  · rw [if_neg hempty]
    by_cases hc : c = x
    · subst hc
      refine (Step.store (segment ((s.children c).inbox.take (BUFFER_SIZE - 1)))
        (decide_eq_true hcleared)).to ?_
      simp [registerOf, sentFrom, inFlight, announcing, hcleared, hzero, segment,
        updateChild_of_ne s _ hne.symm]
      omega
    · have hidx : p.idx c ≠ p.idx x := fun h => hc (p.idx_injective h)
      refine Step.idle.to (registerOf_foreign hc ?_ ?_ ?_ ?_ ?_ ?_ ?_)
      · exact fun y hy => Function.update_of_ne hy ..
      all_goals simp [hcleared, hidx]

/-- A notification that is sent to the parent stays under way. -/
theorem registerOf_notify (hnotify : (s.children x).pc = .notify) (hne : c ≠ d) :
    registerOf p (s.notify p x) c d = registerOf p s c d := by
  by_cases hc : c = x
  · subst hc
    simp [registerOf, sentFrom, inFlight, announcing, State.notify, hnotify,
      updateChild_of_ne s _ hne.symm]
    omega
  · apply registerOf_foreign hc
    · exact fun y hy => Function.update_of_ne hy ..
    all_goals simp [State.notify, hnotify, Function.update_of_ne hc]

/-- A number that a child reads from its pipe stays under way. -/
theorem registerOf_recvPipe (hready : (s.children x).pc = .ready) :
    registerOf p (s.recvPipe x) c d = registerOf p s c d := by
  unfold State.recvPipe
  cases hpipe : s.toChild x with
  | nil => exact registerOf_updateChild (fun _ => rfl) (fun _ => rfl) fun _ => rfl
  | cons client rest =>
    by_cases hd : d = x
    · subst hd
      by_cases hc : c = d
      · subst hc
        simp [registerOf, sentFrom, inFlight, announcing, hready, hpipe, List.count_cons]
        omega
      · simp [registerOf, sentFrom, inFlight, announcing, hready, hpipe, List.count_cons,
          updateChild_of_ne s _ hc]
        omega
    · by_cases hc : c = x
      · subst hc
        simp [registerOf, sentFrom, inFlight, announcing, hready, updateChild_of_ne s _ hd,
          Function.update_of_ne hd]
      · simp [registerOf, sentFrom, inFlight, announcing, updateChild_of_ne s _ hd,
          updateChild_of_ne s _ hc, Function.update_of_ne hd]

/-- To send a segment on to a client is a step of the register. -/
theorem forward_step {client : Nat} (hforward : (s.children x).pc = .forward client) (hne : c ≠ d) :
    Step (registerOf p s c d) (registerOf p (s.forward x client) c d) := by
  by_cases hd : d = x
  · subst hd
    by_cases hclient : client = p.idx c
    · subst hclient
      have hflight : inFlight p s c d = inFlight p (s.forward d (p.idx c)) c d + 1 := by
        simp [inFlight, announcing, State.forward, hforward, updateChild_of_ne s _ hne]
      refine (Step.deliver _ hflight).to ?_
      simp [registerOf, sentFrom, State.forward, updateChild_of_ne s _ hne]
    · refine Step.idle.to ?_
      simp [registerOf, sentFrom, inFlight, announcing, State.forward, hforward, hclient,
        updateChild_of_ne s _ hne]
  · refine Step.idle.to ?_
    by_cases hc : c = x
    · subst hc
      simp [registerOf, sentFrom, inFlight, announcing, State.forward, hforward,
        updateChild_of_ne s _ hd]
    · simp [registerOf, sentFrom, inFlight, announcing, State.forward, updateChild_of_ne s _ hd,
        updateChild_of_ne s _ hc]

/-! ## The steps of the parent -/

/-- The parent that waits changes no register. -/
theorem registerOf_parentWait {events : List C} :
    registerOf p (s.parentWait events) c d = registerOf p s c d := rfl

/-- A number that the parent reads is under way to every other client. -/
theorem registerOf_parentRecv (hn : Numbered p s) (hnone : s.broadcast = none) :
    registerOf p (s.parentRecv p x) c d = registerOf p s c d := by
  unfold State.parentRecv
  cases hpipe : s.toParent x with
  | nil => rfl
  | cons child rest =>
    have hchild : child = p.idx x := hn.upward x child (hpipe ▸ List.mem_cons_self)
    have hcount : p.users.count d = 1 := List.count_eq_one_of_mem p.users_nodup (p.mem_users d)
    by_cases hc : c = x
    · subst hc
      simp [registerOf, sentFrom, inFlight, announcing, hnone, hpipe, hchild, hcount]
      omega
    · have hidx : p.idx x ≠ p.idx c := fun h => hc (p.idx_injective h).symm
      simp [registerOf, sentFrom, inFlight, announcing, hnone, hchild, hidx,
        Function.update_of_ne hc]

/-- A number that the parent sends to a child stays under way to it. -/
theorem registerOf_parentSend {b : Broadcast C} (hn : Numbered p s) (hcast : s.broadcast = some b)
    (hne : c ≠ d) : registerOf p (s.parentSend b) c d = registerOf p s c d := by
  have hsender := hn.relayed b hcast
  unfold State.parentSend
  cases hrest : b.rest with
  | nil => simp [registerOf, sentFrom, inFlight, announcing, hcast, hrest]
  | cons j rest =>
    by_cases hj : j = b.sockfd
    · have hskip : b.child = p.idx c → j ≠ d := by
        rintro h rfl
        exact hne (p.idx_injective ((h.symm.trans hsender).trans (congrArg p.idx hj.symm)))
      have hsame : announcing p { s with broadcast := some { b with rest := rest } } c d =
          announcing p s c d := by
        simp only [announcing, hcast, hrest]
        split
        · exact (List.count_cons_of_ne (hskip ‹_›)).symm
        · rfl
      simp only [if_pos hj]
      exact registerOf_congr rfl rfl (by simp only [inFlight, hsame]) rfl Iff.rfl
    · simp only [if_neg hj]
      by_cases hd : d = j
      · subst hd
        simp [registerOf, sentFrom, inFlight, announcing, hcast, hrest, updateChild_of_ne _ _ hne]
        by_cases hchild : b.child = p.idx c
        · simp [hchild]
          omega
        · simp [hchild]
      · have hcount : (j :: rest).count d = rest.count d := List.count_cons_of_ne (Ne.symm hd)
        by_cases hc : c = j
        · subst hc
          simp [registerOf, sentFrom, inFlight, announcing, hcast, hrest, hcount,
            updateChild_of_ne _ _ hd, Function.update_of_ne hd]
        · simp [registerOf, sentFrom, inFlight, announcing, hcast, hrest, hcount,
            updateChild_of_ne _ _ hd, updateChild_of_ne _ _ hc, Function.update_of_ne hd]

/-! ## Runs -/

omit [DecidableEq C] in
/-- It holds before anything happens. -/
theorem Numbered.create (shareMem : Nat → List UInt8) : Numbered p (create C shareMem) := by
  refine ⟨?_, ?_, ?_⟩
  · intro c k hk
    cases hk
  · intro b hb
    cases hb
  · intro c hc
    cases hc

/-- A change of a child that does not clear its segment keeps it. -/
theorem Numbered.updateChild (hn : Numbered p s) {f : Child → Child}
    (hpc : (f (s.children x)).pc = .cleared → (s.children x).pc = .cleared) :
    Numbered p (s.updateChild x f) := by
  refine ⟨hn.upward, hn.relayed, ?_⟩
  intro c hc
  apply hn.zeroed c
  by_cases hx : c = x
  · subst hx
    rw [updateChild_self] at hc
    exact hpc hc
  · rw [updateChild_of_ne s f hx] at hc
    exact hc

/-- `memset` and `recv` of a child change its segment only. -/
theorem Numbered.writeSegment (hn : Numbered p s) {f : Child → Child} {v : List UInt8}
    (hv : (f (s.children x)).pc = .cleared → v = List.replicate BUFFER_SIZE 0) :
    Numbered p { s.updateChild x f with shareMem := Function.update s.shareMem (p.idx x) v } := by
  refine ⟨hn.upward, hn.relayed, ?_⟩
  intro c hc
  by_cases hx : c = x
  · subst hx
    exact (Function.update_self ..).trans (hv ((congrArg Child.pc (updateChild_self s c f)).symm.trans hc))
  · have hidx : p.idx c ≠ p.idx x := fun h => hx (p.idx_injective h)
    exact (Function.update_of_ne hidx ..).trans
      (hn.zeroed c ((congrArg Child.pc (updateChild_of_ne s f hx)).symm.trans hc))

/-- A child that tells the parent writes its own number. -/
theorem Numbered.notify (hn : Numbered p s) : Numbered p (s.notify p x) := by
  have hready : Numbered p (s.updateChild x fun k => { k with pc := .ready }) :=
    hn.updateChild fun h => by cases h
  refine ⟨?_, hready.relayed, hready.zeroed⟩
  intro c k hk
  by_cases hx : c = x
  · subst hx
    simp only [State.notify, updateChild_toParent, Function.update_self, List.mem_append,
      List.mem_singleton] at hk
    rcases hk with hk | hk
    · exact hn.upward c k hk
    · exact hk
  · simp only [State.notify, updateChild_toParent, Function.update_of_ne hx] at hk
    exact hn.upward c k hk

/-- A child that reads its pipe keeps it. -/
theorem Numbered.recvPipe (hn : Numbered p s) : Numbered p (s.recvPipe x) := by
  unfold State.recvPipe
  split
  · exact hn.updateChild fun h => h
  · rename_i client rest hpipe
    have hread : Numbered p (s.updateChild x fun k =>
        { k with events := k.events.tail, pc := .forward client }) :=
      hn.updateChild fun h => by cases h
    exact ⟨hread.upward, hread.relayed, hread.zeroed⟩

/-- The parent that reads a pipe keeps it. -/
theorem Numbered.parentRecv (hn : Numbered p s) : Numbered p (s.parentRecv p x) := by
  unfold State.parentRecv
  split
  · exact ⟨hn.upward, hn.relayed, hn.zeroed⟩
  · rename_i child rest hpipe
    have hall : ∀ k ∈ child :: rest, k = p.idx x := fun k hk => hn.upward x k (hpipe ▸ hk)
    refine ⟨?_, ?_, hn.zeroed⟩
    · intro c k hk
      by_cases hx : c = x
      · subst hx
        simp only [Function.update_self] at hk
        exact hall k (List.mem_cons_of_mem _ hk)
      · simp only [Function.update_of_ne hx] at hk
        exact hn.upward c k hk
    · intro b hb
      obtain rfl := Option.some.inj hb
      exact hall child List.mem_cons_self

/-- The parent passes on the number that it has read. -/
theorem Numbered.parentSend {b : Broadcast C} (hn : Numbered p s) (hcast : s.broadcast = some b) :
    Numbered p (s.parentSend b) := by
  unfold State.parentSend
  split
  · refine ⟨hn.upward, ?_, hn.zeroed⟩
    intro b' hb'
    cases hb'
  · rename_i j rest hrest
    have hround : Numbered p { s with broadcast := some { b with rest := rest } } := by
      refine ⟨hn.upward, ?_, hn.zeroed⟩
      intro b' hb'
      obtain rfl := Option.some.inj hb'
      exact hn.relayed b hcast
    split
    · exact hround
    · have hedge := hround.updateChild (x := j)
        (f := fun k => { k with edge := Function.update k.edge .pipefd true }) fun h => h
      exact ⟨hedge.upward, hedge.relayed, hedge.zeroed⟩

/-- A child that receives a message is behind the clearing of its segment. -/
theorem Numbered.recvClient (hn : Numbered p s) : Numbered p (s.recvClient p x) := by
  unfold State.recvClient
  by_cases hempty : (s.children x).inbox = []
  · simp only [if_pos hempty]
    exact hn.updateChild fun h => by cases h
  · simp only [if_neg hempty]
    exact hn.writeSegment fun h => by cases h

/-- Every step keeps it. -/
theorem Numbered.step (hn : Numbered p s) (hstep : ChatRelay.Step p s a s') : Numbered p s' := by
  obtain ⟨henabled, rfl⟩ := hstep
  cases a with
  | arrive x data =>
    change Numbered p (s.arrive x data)
    unfold State.arrive
    exact hn.updateChild fun h => h
  | childWait x events =>
    change Numbered p (s.childWait x events)
    unfold State.childWait
    exact hn.updateChild fun h => h
  | clear x => exact hn.writeSegment fun _ => rfl
  | recvClient x => exact hn.recvClient
  | notify x => exact hn.notify
  | recvPipe x => exact hn.recvPipe
  | forward x client =>
    change Numbered p (s.forward x client)
    unfold State.forward
    exact hn.updateChild fun h => by cases h
  | parentWait events => exact ⟨hn.upward, hn.relayed, hn.zeroed⟩
  | parentRecv x => exact hn.parentRecv
  | parentSend b => exact hn.parentSend henabled

/-- Every step of the relay is a step on the register of each pair of clients. -/
theorem register_step (hn : Numbered p s) (hstep : ChatRelay.Step p s a s')
    (hfree : SegmentFree p s a) (hne : c ≠ d) :
    Lib.SharedRegister.Step (registerOf p s c d) (registerOf p s' c d) := by
  obtain ⟨henabled, rfl⟩ := hstep
  cases a with
  | arrive x data => exact Step.idle.to registerOf_arrive
  | childWait x events => exact Step.idle.to registerOf_childWait
  | clear x => exact clear_step henabled.1 (fun hc => hfree c (hc ▸ rfl) d hne) hne
  | recvClient x => exact recvClient_step henabled (hn.zeroed x henabled) hne
  | notify x => exact Step.idle.to (registerOf_notify henabled hne)
  | recvPipe x => exact Step.idle.to (registerOf_recvPipe henabled.1)
  | forward x client => exact forward_step henabled hne
  | parentWait events => exact Step.idle.to registerOf_parentWait
  | parentRecv x => exact Step.idle.to (registerOf_parentRecv hn henabled.1)
  | parentSend b => exact Step.idle.to (registerOf_parentSend hn henabled hne)

end Registers

end ServerListings.Interface.Relay
