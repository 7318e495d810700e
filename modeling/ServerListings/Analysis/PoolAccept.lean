import ServerListings.Interface.DispatchEdges
import ServerListings.Interface.RoundRobin
import ServerListings.Lib.Transition

/-!
# No client left in the accept queue of the pool

One event of the listening socket stands for all clients that came before `epoll_wait`, and the
parent sends one notification for it; the same holds for the notifications in a pipe, of which
a child reads one. What comes while an edge is raised is merged with what raised it. For every
arrival that was merged, at either place, a client is left waiting when all processes wait.
-/

set_option autoImplicit false

namespace ServerListings.Analysis.PoolAccept

open Lib.EdgeTriggered Lib.Transition ServerListings.Model.ProcessPool
open ServerListings.Model.PoolDispatch ServerListings.Interface ServerListings.Interface.PoolDispatch

section Waiting

variable {n : Nat} {C : Type} [DecidableEq C] {p : Children (n + 1)} {s : State (n + 1) C}
  {log : List (Merged (n + 1))}

/-- What is left when all processes wait: as many clients as arrivals were merged with an earlier
one, and in each pipe as many notifications as were merged there. -/
theorem left_waiting
    (hrun : Logged (Step p) (fun _ _ => True) (merged p) (create n C) log s) (hidle : Idle s) :
    s.queue.length = log.length ∧ ∀ i, (s.children i).unread = log.count (.notification i) := by
  have hcounted : Counted log s := by
    apply hrun.invariant (I := Counted) Counted.create
    intro log s a s' h hstep _
    exact h.step hstep
  exact hcounted.idle hidle

/-- No client and no notification is left when the parent and all children wait, if and only if
no step of the run merged anything: every client connected while the edge of the listening
socket was not raised, and every notification was sent while the edge of its pipe was not. -/
theorem no_client_waiting
    (hrun : Logged (Step p) (fun _ _ => True) (merged p) (create n C) log s) (hidle : Idle s) :
    (s.queue = [] ∧ ∀ i, (s.children i).unread = 0) ↔ log = [] := by
  obtain ⟨hqueue, hunread⟩ := left_waiting hrun hidle
  constructor
  · rintro ⟨hnone, -⟩
    rw [hnone, List.length_nil] at hqueue
    exact List.eq_nil_of_length_eq_zero hqueue.symm
  · rintro rfl
    exact ⟨List.eq_nil_of_length_eq_zero hqueue, hunread⟩

end Waiting

/-! ## Runs of two clients -/

section Schedules

variable {n : Nat} {C : Type} [DecidableEq C] {p : Children n} {s s' : State n C} {a : Action n C}

/-- The step function of the pool. -/
def follow (p : Children n) : State n C → Action n C → Option (State n C) :=
  attempt State.Enabled fun s a => s.perform p a

/-- What `follow` gives is a step. -/
theorem step_of_follow (h : follow p s a = some s') : Step p s a s' := attempt_eq_some h

end Schedules

/-- Both clients come before the parent waits again. The parent sends one notification. -/
def together : List (Action 1 Bool) :=
  [.arrive true, .arrive false, .parentWait [.listenfd], .dispatch, .childWait 0 [.pipefd], .recv 0,
    .accept 0]

/-- Both notifications come before the child waits. It reads one. -/
def apart : List (Action 1 Bool) :=
  [.arrive true, .parentWait [.listenfd], .dispatch, .arrive false, .parentWait [.listenfd],
    .dispatch, .childWait 0 [.pipefd], .recv 0, .accept 0]

/-- The clients come one after the other and go to the first two of four children. -/
def oneByOne : List (Action 4 Bool) :=
  [.arrive true, .parentWait [.listenfd], .arrive false, .dispatch, .childWait 0 [.pipefd],
    .parentWait [.listenfd], .recv 0, .dispatch, .accept 0, .childWait 1 [.pipefd], .recv 1, .accept 1]

/-- The state after the actions. -/
def after (n : Nat) (as : List (Action (n + 1) Bool)) : State (n + 1) Bool :=
  as.foldl (·.perform (forked (n + 1)) ·) (create n Bool)

/-- Two clients, one after the other. -/
theorem no_client_waiting_two :
    (after 3 oneByOne).queue = [] ∧ ∀ i, ((after 3 oneByOne).children i).unread = 0 := by
  have hlog : loggedSchedule (follow (forked 4)) (fun _ _ => True) (merged (forked 4)) (create 3 Bool)
      oneByOne = some ([], after 3 oneByOne) := by rfl
  have hrun := Logged.of_schedule .refl (fun s a s' => step_of_follow) (fun _ _ _ h => h) hlog
  exact (no_client_waiting hrun (by decide)).mpr rfl

/-- The second client is in the accept queue when both processes wait. -/
theorem client_left_waiting : ¬ ∀ s : State 1 Bool,
    Run (Step (forked 1)) (fun _ _ => True) (create 0 Bool) s → Idle s →
      s.queue = [] ∧ ∀ i, (s.children i).unread = 0 := by
  intro hall
  have hrun : schedule (follow (forked 1)) (fun _ _ => True) (create 0 Bool) together =
      some (after 0 together) := by rfl
  have hleft := hall _ (Run.refl.of_schedule (fun s a s' => step_of_follow) hrun) (by decide)
  exact absurd hleft.1 (by decide)

/-- The second notification is in the pipe, and the client in the accept queue. -/
theorem notification_left_unread : ∃ s : State 1 Bool,
    Run (Step (forked 1)) (fun _ _ => True) (create 0 Bool) s ∧ Idle s ∧ s.queue = [false] ∧
      (s.children 0).unread = 1 := by
  have hrun : schedule (follow (forked 1)) (fun _ _ => True) (create 0 Bool) apart =
      some (after 0 apart) := by rfl
  exact ⟨_, Run.refl.of_schedule (fun s a s' => step_of_follow) hrun, by decide, by decide, by decide⟩

end ServerListings.Analysis.PoolAccept
