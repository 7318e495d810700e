import Mathlib.Algebra.BigOperators.Fin
import ServerListings.Model.PoolDispatch

/-!
# The edges of the process pool

The parent sends one notification for each event of the listening socket, and a child takes one
notification and one client for each event of its pipe. `Counted` says how many notifications
and clients have no event or edge of their own: those that came while an edge was raised.
-/

set_option autoImplicit false

namespace ServerListings.Interface.PoolDispatch

open Lib.EdgeTriggered ServerListings.Model.ProcessPool ServerListings.Model.PoolDispatch

section Edges

variable {n : Nat} {C : Type} {p : Children n} {s s' : State n C} {a : Action n C} {i j : Fin n}

/-! ## Changes to one child -/

/-- The child that is changed. -/
@[simp] theorem updateChild_self (s : State n C) (i : Fin n) (f : Child C → Child C) :
    (s.updateChild i f).children i = f (s.children i) := Function.update_self ..

/-- The other children. -/
theorem updateChild_of_ne (s : State n C) (f : Child C → Child C) (h : j ≠ i) :
    (s.updateChild i f).children j = s.children j := Function.update_of_ne h ..

/-! ## What is going to be accepted -/

/-- The clients that a child is going to accept. -/
def accepts [DecidableEq C] (k : Child C) : Nat :=
  pending k.edge k.events .pipefd + if k.accepting = true then 1 else 0

variable [DecidableEq C]

/-- The clients that all children are going to accept. -/
def taking (s : State n C) : Nat := Finset.univ.sum fun i => accepts (s.children i)

/-- A change to one child changes the sum by what it changes there. -/
theorem taking_updateChild (s : State n C) (i : Fin n) (f : Child C → Child C) :
    taking (s.updateChild i f) + accepts (s.children i) = taking s + accepts (f (s.children i)) := by
  have hnew := Finset.add_sum_erase Finset.univ (fun j => accepts ((s.updateChild i f).children j))
    (Finset.mem_univ i)
  have hold := Finset.add_sum_erase Finset.univ (fun j => accepts (s.children j)) (Finset.mem_univ i)
  have hrest : ((Finset.univ.erase i).sum fun j => accepts ((s.updateChild i f).children j)) =
      (Finset.univ.erase i).sum fun j => accepts (s.children j) := by
    refine Finset.sum_congr rfl fun j hj => ?_
    rw [updateChild_of_ne s f (Finset.ne_of_mem_erase hj)]
  rw [hrest] at hnew
  simp only [updateChild_self] at hnew
  unfold taking
  omega

/-- A child that accepts is among those taking clients. -/
theorem accepts_le_taking (s : State n C) (i : Fin n) : accepts (s.children i) ≤ taking s := by
  have hsum := Finset.add_sum_erase Finset.univ (fun j => accepts (s.children j)) (Finset.mem_univ i)
  unfold taking
  omega

/-! ## Arrivals without an event of their own -/

/-- An arrival that raises an edge that is raised already: a client, or a notification for a
child. -/
inductive Merged (n : Nat)
  | client
  | notification (i : Fin n)
  deriving DecidableEq, Repr

/-- What a step merges with an arrival before it. -/
def merged (p : Children n) (s : State n C) : Action n C → List (Merged n)
  | .arrive _ => if s.edge .listenfd = true then [.client] else []
  | .dispatch =>
    if (s.children (choose p.pid s.subProcessCounter)).edge .pipefd = true then
      [.notification (choose p.pid s.subProcessCounter)]
    else []
  | _ => []

/-- The notifications in the pipes and the clients in the accept queue are those that are going
to be read and accepted, and those that were merged. -/
structure Counted (log : List (Merged n)) (s : State n C) : Prop where
  unread : ∀ i, (s.children i).unread =
    pending (s.children i).edge (s.children i).events .pipefd + log.count (.notification i)
  queued : s.queue.length = pending s.edge s.events .listenfd + taking s + log.length

variable {log l : List (Merged n)} {f : Child C → Child C}

/-- At first there is nobody to count. -/
theorem Counted.create : Counted [] (create n C) := by
  refine ⟨fun i => rfl, ?_⟩
  have htaking : taking (Model.PoolDispatch.create n C) = 0 := Finset.sum_eq_zero fun i _ => rfl
  rw [htaking]
  rfl

/-- A step that changes one child. What the queue, the edge of the parent and the child lose and
gain is balanced by what the step merges. -/
theorem Counted.change (h : Counted log s) (hchildren : s'.children = (s.updateChild i f).children)
    (hunread : (f (s.children i)).unread = pending (f (s.children i)).edge (f (s.children i)).events .pipefd +
      (log ++ l).count (.notification i))
    (hother : ∀ j, j ≠ i → l.count (.notification j) = 0)
    (hqueued : s'.queue.length + pending s.edge s.events .listenfd + accepts (s.children i) =
      s.queue.length + pending s'.edge s'.events .listenfd + accepts (f (s.children i)) + l.length) :
    Counted (log ++ l) s' := by
  have hsum := taking_updateChild s i f
  have hbefore := h.queued
  have hsame : taking s' = taking (s.updateChild i f) := by rw [taking, hchildren, taking]
  refine ⟨fun j => ?_, ?_⟩
  · rw [hchildren]
    by_cases hj : j = i
    · subst hj
      rw [updateChild_self]
      exact hunread
    · rw [updateChild_of_ne s f hj, List.count_append, hother j hj]
      exact h.unread j
  · rw [List.length_append]
    omega

/-- A change to one child that merges nothing and keeps what it is going to accept. -/
theorem Counted.updateChild (h : Counted log s)
    (hunread : (f (s.children i)).unread = pending (f (s.children i)).edge (f (s.children i)).events .pipefd +
      log.count (.notification i))
    (haccepts : accepts (f (s.children i)) = accepts (s.children i)) :
    Counted (log ++ []) (s.updateChild i f) := by
  refine h.change rfl (by rwa [List.append_nil]) (fun _ _ => rfl) ?_
  rw [haccepts]
  rfl

/-! ## The steps -/

/-- An arrival keeps the count. -/
theorem Counted.arrive {client : C} (h : Counted log s) :
    Counted (log ++ merged p s (.arrive client)) (s.arrive client) := by
  have hqueued := h.queued
  have hlen : (s.arrive client).queue.length = s.queue.length + 1 := List.length_append
  by_cases hedge : s.edge .listenfd = true
  · rw [show merged p s (.arrive client) = [.client] from if_pos hedge]
    refine ⟨fun i => ?_, ?_⟩
    · rw [List.count_append, List.count_singleton]
      exact h.unread i
    · rw [hlen, hqueued, List.length_append]
      show _ = pending (Function.update s.edge .listenfd true) s.events .listenfd + taking s +
        (log.length + 1)
      rw [pending_raise_raised hedge]
      omega
  · rw [show merged p s (.arrive client) = [] from if_neg hedge, List.append_nil]
    refine ⟨h.unread, ?_⟩
    rw [hlen, hqueued]
    show _ = pending (Function.update s.edge .listenfd true) s.events .listenfd + taking s + log.length
    rw [pending_raise_self (Bool.eq_false_iff.mpr hedge)]
    omega

/-- The parent's `epoll_wait` keeps the count. -/
theorem Counted.parentWait {batch : List ListenSource} (h : Counted log s) (hnone : s.events = [])
    (hbatch : Fetched s.edge batch) : Counted log (s.parentWait batch) := by
  refine ⟨h.unread, ?_⟩
  show s.queue.length = pending (remaining s.edge batch) batch .listenfd + taking s + log.length
  rw [pending_fetched hbatch, ← hnone]
  exact h.queued

/-- The child after a notification. -/
def notified (k : Child C) : Child C :=
  { k with unread := k.unread + 1, edge := Function.update k.edge .pipefd true }

/-- A notification is one more event. -/
theorem pending_notified {k : Child C} (h : k.edge .pipefd = false) :
    pending (notified k).edge (notified k).events .pipefd = pending k.edge k.events .pipefd + 1 :=
  pending_raise_self h

/-- A notification on a raised edge is none. -/
theorem pending_notified_raised {k : Child C} (h : k.edge .pipefd = true) :
    pending (notified k).edge (notified k).events .pipefd = pending k.edge k.events .pipefd :=
  pending_raise_raised h

/-- A dispatch keeps the count. -/
theorem Counted.dispatch (h : Counted log s) (hhead : s.events.head? = some .listenfd) :
    Counted (log ++ merged p s .dispatch) (s.dispatch p) := by
  have hunread := h.unread (choose p.pid s.subProcessCounter)
  have hhandled : pending s.edge s.events .listenfd = pending s.edge s.events.tail .listenfd + 1 :=
    pending_handled hhead
  have hmore : (notified (s.children (choose p.pid s.subProcessCounter))).unread =
      (s.children (choose p.pid s.subProcessCounter)).unread + 1 := rfl
  have hchange : (s.dispatch p).children =
      (s.updateChild (choose p.pid s.subProcessCounter) notified).children := rfl
  have hqueue : (s.dispatch p).queue = s.queue := rfl
  have hevents : pending (s.dispatch p).edge (s.dispatch p).events .listenfd =
      pending s.edge s.events.tail .listenfd := rfl
  by_cases hedge : (s.children (choose p.pid s.subProcessCounter)).edge .pipefd = true
  · have hsame := pending_notified_raised hedge
    rw [show merged p s .dispatch = [.notification (choose p.pid s.subProcessCounter)] from if_pos hedge]
    refine h.change hchange ?_ ?_ ?_
    · rw [hsame, hmore, List.count_append, List.count_singleton_self, hunread]
      rfl
    · intro j hj
      exact List.count_eq_zero.mpr fun hmem =>
        hj (Merged.notification.inj (List.mem_singleton.mp hmem))
    · rw [hqueue, hevents, accepts, accepts, hsame, hhandled]
      show _ + (_ + if (s.children _).accepting = true then 1 else 0) =
        _ + (_ + if (s.children _).accepting = true then 1 else 0) + 1
      omega
  · have hraise := pending_notified (Bool.eq_false_iff.mpr hedge)
    rw [show merged p s .dispatch = [] from if_neg hedge]
    refine h.change hchange ?_ (fun _ _ => rfl) ?_
    · rw [hraise, hmore, List.append_nil, hunread]
      omega
    · rw [hqueue, hevents, accepts, accepts, hraise, hhandled]
      show _ + (_ + if (s.children _).accepting = true then 1 else 0) =
        _ + (_ + if (s.children _).accepting = true then 1 else 0) + 0
      omega

/-- A child's `epoll_wait` keeps the count. -/
theorem Counted.childWait {batch : List (ChildSource C)} (h : Counted log s)
    (hnone : (s.children i).events = []) (hbatch : Fetched (s.children i).edge batch) :
    Counted (log ++ []) (s.childWait i batch) := by
  have hsame : pending (remaining (s.children i).edge batch) batch .pipefd =
      pending (s.children i).edge (s.children i).events .pipefd := by
    rw [pending_fetched hbatch, hnone]
  apply h.updateChild
  · show (s.children i).unread = pending (remaining (s.children i).edge batch) batch .pipefd + _
    rw [hsame]
    exact h.unread i
  · simp only [accepts]
    rw [hsame]

/-- Reading the notification keeps the count. -/
theorem Counted.recv (h : Counted log s) (hready : (s.children i).accepting = false)
    (hhead : (s.children i).events.head? = some .pipefd) : Counted (log ++ []) (s.recv i) := by
  have hunread := h.unread i
  have hhandled : pending (s.children i).edge (s.children i).events .pipefd =
      pending (s.children i).edge (s.children i).events.tail .pipefd + 1 := pending_handled hhead
  apply h.updateChild
  · show (s.children i).unread - 1 =
      pending (s.children i).edge (s.children i).events.tail .pipefd + log.count (.notification i)
    omega
  · simp only [accepts, hready]
    simp
    omega

/-- Accepting keeps the count. -/
theorem Counted.accept (h : Counted log s) (hnow : (s.children i).accepting = true) :
    Counted (log ++ []) (s.accept i) := by
  have hqueued := h.queued
  have htaking := accepts_le_taking s i
  have hone : 1 ≤ accepts (s.children i) := by
    rw [accepts, if_pos hnow]
    exact Nat.le_add_left 1 _
  unfold State.accept
  split
  · rename_i hqueue
    rw [hqueue, List.length_nil] at hqueued
    omega
  · rename_i client rest hqueue
    refine h.change (i := i)
      (f := fun k => { k with accepting := false, conns := k.conns ++ [client] }) ?_ ?_
      (fun _ _ => rfl) ?_
    · rfl
    · rw [List.append_nil]
      exact h.unread i
    · show rest.length + pending s.edge s.events .listenfd + accepts (s.children i) =
        s.queue.length + pending s.edge s.events .listenfd + accepts _ + 0
      simp only [accepts, hnow, hqueue, List.length_cons]
      simp
      omega

/-- Data of a client keeps the count. -/
theorem Counted.request {client : C} (h : Counted log s) :
    Counted (log ++ []) (s.request i client) := by
  have hsame : pending (Function.update (s.children i).edge (.connfd client) true)
      (s.children i).events .pipefd = pending (s.children i).edge (s.children i).events .pipefd :=
    pending_raise_of_ne (by simp)
  apply h.updateChild
  · show (s.children i).unread = pending (Function.update (s.children i).edge (.connfd client) true)
      (s.children i).events .pipefd + _
    rw [hsame]
    exact h.unread i
  · simp only [accepts]
    rw [hsame]

/-- Processing keeps the count. -/
theorem Counted.process {client : C} (h : Counted log s)
    (hhead : (s.children i).events.head? = some (.connfd client)) :
    Counted (log ++ []) (s.process i) := by
  have hsame : pending (s.children i).edge (s.children i).events.tail .pipefd =
      pending (s.children i).edge (s.children i).events .pipefd :=
    (pending_handled_of_ne hhead (by simp)).symm
  apply h.updateChild
  · show (s.children i).unread = pending (s.children i).edge (s.children i).events.tail .pipefd + _
    rw [hsame]
    exact h.unread i
  · simp only [accepts]
    rw [hsame]

/-- A step keeps the count. -/
theorem Counted.step (h : Counted log s) (hstep : Step p s a s') : Counted (log ++ merged p s a) s' := by
  obtain ⟨henabled, rfl⟩ := hstep
  cases a with
  | arrive client => exact h.arrive
  | parentWait batch =>
    rw [show merged p s (.parentWait batch) = [] from rfl, List.append_nil]
    exact h.parentWait henabled.1 henabled.2
  | dispatch => exact h.dispatch henabled
  | childWait i batch => exact h.childWait henabled.2.1 henabled.2.2
  | recv i => exact h.recv henabled.1 henabled.2
  | accept i => exact h.accept henabled
  | request i client => exact h.request
  | process i client => exact h.process henabled.2

/-! ## Waiting -/

/-- The parent and all children are about to wait, and no event is pending. -/
structure Idle (s : State n C) : Prop where
  events : s.events = []
  edge : ∀ x, s.edge x = false
  childReady : ∀ i, (s.children i).accepting = false
  childEvents : ∀ i, (s.children i).events = []
  childEdge : ∀ i x, (s.children i).edge x = false

instance [Fintype C] (s : State n C) : Decidable (Idle s) :=
  decidable_of_iff (s.events = [] ∧ (∀ x, s.edge x = false) ∧
      ∀ i, (s.children i).accepting = false ∧ (s.children i).events = [] ∧
        ∀ x, (s.children i).edge x = false)
    ⟨fun h => ⟨h.1, h.2.1, fun i => (h.2.2 i).1, fun i => (h.2.2 i).2.1, fun i => (h.2.2 i).2.2⟩,
      fun h => ⟨h.events, h.edge, fun i => ⟨h.childReady i, h.childEvents i, h.childEdge i⟩⟩⟩

/-- What is left when all processes wait is what was merged. -/
theorem Counted.idle (h : Counted log s) (hidle : Idle s) :
    s.queue.length = log.length ∧ ∀ i, (s.children i).unread = log.count (.notification i) := by
  have hnone : ∀ i, pending (s.children i).edge (s.children i).events .pipefd = 0 := by
    intro i
    rw [pending, hidle.childEdge, hidle.childEvents]
    rfl
  have htaking : taking s = 0 := by
    refine Finset.sum_eq_zero fun i _ => ?_
    rw [accepts, hnone, hidle.childReady]
    rfl
  refine ⟨?_, fun i => ?_⟩
  · rw [h.queued, pending, hidle.edge, hidle.events, htaking]
    simp
  · rw [h.unread i, hnone, Nat.zero_add]

end Edges

end ServerListings.Interface.PoolDispatch
