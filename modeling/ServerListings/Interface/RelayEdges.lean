import ServerListings.Interface.RelaySteps

/-!
# The edges of the pipes of the relay

A reader takes one number from a pipe for each event. `Heard` says that every number in a pipe
has an event or an edge of its own, which holds as long as nobody writes to a pipe whose edge is
raised. Then a number in a pipe always gives its reader a step to make.
-/

set_option autoImplicit false

namespace ServerListings.Interface.Relay

open Lib.EdgeTriggered ServerListings.Model ServerListings.Model.ChatRelay

section Edges

variable {C : Type} [DecidableEq C] {p : Clients C} {s s' : State C} {a : Action C} {c d x : C}

/-- A number is written to a pipe only when the edge of the reader is not raised. -/
def EdgeFree (s : State C) (a : Action C) : Prop :=
  (∀ c, a = .notify c → s.edge c = false) ∧
    ∀ b j rest, a = .parentSend b → b.rest = j :: rest → j ≠ b.sockfd →
      (s.children j).edge .pipefd = false

/-- Every number in a pipe is going to be read. -/
structure Heard (s : State C) : Prop where
  down : ∀ d, (s.toChild d).length ≤
    pending (s.children d).edge (s.children d).events .pipefd
  up : ∀ c, (s.toParent c).length ≤ pending s.edge s.events c

/-! ## The steps of a child -/

/-- A change of a child that takes no wake-up away keeps it. -/
theorem Heard.updateChild (h : Heard s) {f : Child → Child}
    (hf : pending (s.children x).edge (s.children x).events .pipefd ≤
      pending (f (s.children x)).edge (f (s.children x)).events .pipefd) :
    Heard (s.updateChild x f) := by
  refine ⟨?_, h.up⟩
  intro d
  by_cases hd : d = x
  · subst hd
    rw [updateChild_self]
    exact (h.down d).trans hf
  · rw [updateChild_of_ne s f hd]
    exact h.down d

/-- New data of a client keeps it. -/
theorem Heard.arrive (h : Heard s) {data : List UInt8} : Heard (s.arrive x data) := by
  apply h.updateChild
  rw [pending_raise_of_ne (by decide)]

/-- A child that waits gets the wake-ups that were raised. -/
theorem Heard.childWait (h : Heard s) {events : List Source} (hnone : (s.children x).events = [])
    (hret : Returned (s.children x).edge events) : Heard (s.childWait x events) := by
  apply h.updateChild
  rw [pending_returned hret, hnone]

/-- A child that clears its segment handles its client first. -/
theorem Heard.clear (h : Heard s) (hhead : (s.children x).events.head? = some .connfd) :
    Heard (s.clear p x) := by
  have hchild : Heard (s.updateChild x fun k => { k with events := k.events.tail, pc := .cleared }) := by
    apply h.updateChild
    rw [pending_handled_of_ne hhead (by decide)]
  exact ⟨hchild.down, hchild.up⟩

/-- A child that receives a message keeps it. -/
theorem Heard.recvClient (h : Heard s) : Heard (s.recvClient p x) := by
  unfold State.recvClient
  by_cases hempty : (s.children x).inbox = []
  · simp only [if_pos hempty]
    exact h.updateChild (Nat.le_refl _)
  · simp only [if_neg hempty]
    have hchild : Heard (s.updateChild x fun k =>
        { k with
          inbox := (s.children x).inbox.drop (ChatServer.BUFFER_SIZE - 1), pc := .notify,
          received := k.received ++ [(s.children x).inbox.take (ChatServer.BUFFER_SIZE - 1)] }) :=
      h.updateChild (Nat.le_refl _)
    exact ⟨hchild.down, hchild.up⟩

/-- A child that tells the parent wakes it up. -/
theorem Heard.notify (h : Heard s) (hedge : s.edge x = false) : Heard (s.notify p x) := by
  have hchild : Heard (s.updateChild x fun k => { k with pc := .ready }) :=
    h.updateChild (Nat.le_refl _)
  refine ⟨hchild.down, ?_⟩
  intro c
  by_cases hc : c = x
  · subst hc
    simp only [State.notify, updateChild_toParent, Function.update_self, List.length_append,
      List.length_singleton]
    change _ ≤ pending (Function.update s.edge c true) s.events c
    rw [pending_raise_self hedge]
    exact Nat.succ_le_succ (h.up c)
  · simp only [State.notify, updateChild_toParent, Function.update_of_ne hc]
    change _ ≤ pending (Function.update s.edge x true) s.events c
    rw [pending_raise_of_ne hc]
    exact h.up c

/-- A child that reads its pipe takes one number out. -/
theorem Heard.recvPipe (h : Heard s) (hhead : (s.children x).events.head? = some .pipefd) :
    Heard (s.recvPipe x) := by
  have hx := h.down x
  rw [pending_handled hhead] at hx
  refine ⟨?_, ?_⟩
  · intro d
    unfold State.recvPipe
    by_cases hd : d = x
    · subst hd
      split
      · rename_i hpipe
        simp [hpipe]
      · rename_i client rest hpipe
        rw [hpipe, List.length_cons] at hx
        simp only [Function.update_self, updateChild_toChild, updateChild_self]
        exact Nat.le_of_succ_le_succ hx
    · split
      · rw [updateChild_of_ne s _ hd]
        exact h.down d
      · simp only [updateChild_toChild, Function.update_of_ne hd, updateChild_of_ne s _ hd]
        exact h.down d
  · unfold State.recvPipe
    split
    · exact h.up
    · exact h.up

/-- A child that sends a message on keeps it. -/
theorem Heard.forward (h : Heard s) {client : Nat} : Heard (s.forward x client) :=
  h.updateChild (Nat.le_refl _)

/-! ## The steps of the parent -/

/-- The parent that waits gets the wake-ups that were raised. -/
theorem Heard.parentWait (h : Heard s) {events : List C} (hnone : s.events = [])
    (hret : Returned s.edge events) : Heard (s.parentWait events) := by
  refine ⟨h.down, ?_⟩
  intro c
  have hc := h.up c
  rw [hnone, ← pending_returned hret] at hc
  exact hc

/-- The parent that reads a pipe takes one number out. -/
theorem Heard.parentRecv (h : Heard s) (hhead : s.events.head? = some x) :
    Heard (s.parentRecv p x) := by
  have hx := h.up x
  rw [pending_handled hhead] at hx
  refine ⟨?_, ?_⟩
  · unfold State.parentRecv
    split
    · exact h.down
    · exact h.down
  · intro c
    unfold State.parentRecv
    by_cases hc : c = x
    · subst hc
      split
      · rename_i hpipe
        simp [hpipe]
      · rename_i child rest hpipe
        rw [hpipe, List.length_cons] at hx
        simp only [Function.update_self]
        exact Nat.le_of_succ_le_succ hx
    · have hother := h.up c
      rw [pending_handled_of_ne hhead hc] at hother
      split
      · exact hother
      · simp only [Function.update_of_ne hc]
        exact hother

/-- The parent that writes a pipe wakes its child up. -/
theorem Heard.parentSend {b : Broadcast C} (h : Heard s)
    (hedge : ∀ j rest, b.rest = j :: rest → j ≠ b.sockfd → (s.children j).edge .pipefd = false) :
    Heard (s.parentSend b) := by
  unfold State.parentSend
  split
  · exact ⟨h.down, h.up⟩
  · rename_i j rest hrest
    by_cases hj : j = b.sockfd
    · simp only [if_pos hj]
      exact ⟨h.down, h.up⟩
    · simp only [if_neg hj]
      refine ⟨?_, h.up⟩
      intro d
      by_cases hd : d = j
      · subst hd
        simp only [updateChild_toChild, Function.update_self, updateChild_self, List.length_append,
          List.length_singleton]
        rw [pending_raise_self (hedge d rest hrest hj)]
        exact Nat.succ_le_succ (h.down d)
      · simp only [updateChild_toChild, Function.update_of_ne hd, updateChild_of_ne _ _ hd]
        exact h.down d

/-! ## Runs -/

/-- Before anything happens the pipes are empty. -/
theorem Heard.create (shareMem : Nat → List UInt8) : Heard (create C shareMem) :=
  ⟨fun _ => Nat.zero_le _, fun _ => Nat.zero_le _⟩

/-- Every step that writes to readers without an edge keeps it. -/
theorem Heard.step (h : Heard s) (hstep : Step p s a s') (hfree : EdgeFree s a) : Heard s' := by
  obtain ⟨henabled, rfl⟩ := hstep
  cases a with
  | arrive x data => exact h.arrive
  | childWait x events => exact h.childWait henabled.2.1 henabled.2.2
  | clear x => exact h.clear henabled.2
  | recvClient x => exact h.recvClient
  | notify x => exact h.notify (hfree.1 x rfl)
  | recvPipe x => exact h.recvPipe henabled.2
  | forward x client => exact h.forward
  | parentWait events => exact h.parentWait henabled.2.1 henabled.2.2
  | parentRecv x => exact h.parentRecv henabled.2
  | parentSend b => exact h.parentSend fun j rest hrest hj => hfree.2 b j rest rfl hrest hj

end Edges

/-! ## Who has a step to make -/

section Waiting

variable {C : Type} {s : State C} {x : C}

/-- No process has a step to make: only new data of a client changes something. -/
def Quiescent (s : State C) : Prop := ∀ a, s.Enabled a → ∃ c data, a = .arrive c data

/-- A child has nothing begun. -/
theorem Quiescent.child_ready (h : Quiescent s) : (s.children x).pc = .ready := by
  cases hpc : (s.children x).pc with
  | ready => rfl
  | cleared =>
    obtain ⟨c, data, heq⟩ := h (.recvClient x) hpc
    cases heq
  | notify =>
    obtain ⟨c, data, heq⟩ := h (.notify x) hpc
    cases heq
  | forward client =>
    obtain ⟨c, data, heq⟩ := h (.forward x client) hpc
    cases heq

/-- A child has no event left. -/
theorem Quiescent.child_events (h : Quiescent s) : (s.children x).events = [] := by
  cases hevents : (s.children x).events with
  | nil => rfl
  | cons y rest =>
    cases y with
    | connfd =>
      obtain ⟨c, data, heq⟩ := h (.clear x) ⟨h.child_ready, by rw [hevents]; rfl⟩
      cases heq
    | pipefd =>
      obtain ⟨c, data, heq⟩ := h (.recvPipe x) ⟨h.child_ready, by rw [hevents]; rfl⟩
      cases heq

/-- No wake-up of a child is raised. -/
theorem Quiescent.child_edge (h : Quiescent s) (y : Source) : (s.children x).edge y = false := by
  cases hedge : (s.children x).edge y with
  | false => rfl
  | true =>
    have hall : ∀ z, (s.children x).edge z = true → z ∈ [Source.connfd, Source.pipefd] := by
      intro z _
      cases z <;> decide
    obtain ⟨events, hret⟩ := exists_returned (by decide) hall hedge
    obtain ⟨c, data, heq⟩ := h (.childWait x events) ⟨h.child_ready, h.child_events, hret⟩
    cases heq

/-- The parent has nothing to pass on. -/
theorem Quiescent.broadcast (h : Quiescent s) : s.broadcast = none := by
  cases hcast : s.broadcast with
  | none => rfl
  | some b =>
    obtain ⟨c, data, heq⟩ := h (.parentSend b) hcast
    cases heq

/-- The parent has no event left. -/
theorem Quiescent.events (h : Quiescent s) : s.events = [] := by
  cases hevents : s.events with
  | nil => rfl
  | cons x rest =>
    obtain ⟨c, data, heq⟩ := h (.parentRecv x) ⟨h.broadcast, by rw [hevents]; rfl⟩
    cases heq

/-- No wake-up of the parent is raised. -/
theorem Quiescent.edge (h : Quiescent s) (p : Clients C) (x : C) : s.edge x = false := by
  cases hedge : s.edge x with
  | false => rfl
  | true =>
    obtain ⟨events, hret⟩ := exists_returned p.users_nodup (fun y _ => p.mem_users y) hedge
    obtain ⟨c, data, heq⟩ := h (.parentWait events) ⟨h.broadcast, h.events, hret⟩
    cases heq

/-- When no process has a step to make and every number has its event, nothing is under way. -/
theorem Quiescent.inFlight [DecidableEq C] (h : Quiescent s) (hheard : Heard s) (p : Clients C) (c d : C) :
    inFlight p s c d = 0 := by
  have hdown : s.toChild d = [] := by
    have hlen := hheard.down d
    rw [pending, h.child_edge, h.child_events] at hlen
    exact List.length_eq_zero_iff.mp (Nat.le_zero.mp hlen)
  have hup : s.toParent c = [] := by
    have hlen := hheard.up c
    rw [pending, h.edge p, h.events] at hlen
    exact List.length_eq_zero_iff.mp (Nat.le_zero.mp hlen)
  simp [Relay.inFlight, announcing, h.child_ready, h.broadcast, hdown, hup]

end Waiting

end ServerListings.Interface.Relay
