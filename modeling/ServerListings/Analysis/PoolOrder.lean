import ServerListings.Interface.PoolRules

/-!
# The thread pool runs every accepted request once and in order

The post is made outside of the critical section and the wait before it, so the semaphore runs
ahead of the queue or behind it. The difference is the number of workers that are past the wait
and have not taken their request, and of calls of `append` that have not made their post. With it
a worker that is past the wait always finds a request, and no request is left while all workers
wait.
-/

set_option autoImplicit false

namespace ServerListings.Analysis.PoolOrder

open Lib.Threads Lib.Transition ServerListings.Model ServerListings.Model.ThreadPool
open ServerListings.Interface.PoolRules

section Accounting

variable {T R : Type} [DecidableEq T] [Fintype T] [DecidableEq R] {release : MutexCall}
  {worker : T → Bool} {maxRequests : Nat} {s s' : Pool T R} {a : Action T R}

/-- Requests are left in the queue, no call of `append` owes a post, and all workers are blocked
in `wait`. -/
structure Stalled (worker : T → Bool) (s : Pool T R) : Prop where
  queued : s.workqueue ≠ []
  noPost : ∀ t, owesPost (s.pc t) = false
  zero : s.queuestat = 0
  waiting : ∀ t, worker t = true → s.pc t = .runWait

/-- The account of the requests. `popped` and `pushed` are in the order in which the requests
were taken and pushed. -/
structure Accounted (worker : T → Bool) (s : Pool T R) : Prop where
  order : s.popped ++ s.workqueue = s.pushed.map Prod.snd
  accepted : ∀ t, pushedBy s t = acceptedBy s t ++ (face (s.pc t)).unreturned
  once : ∀ r, s.popped.count (some r) = s.processed.count r + census (hasInHand r) s.pc
  distinct : (s.pushed.map Prod.snd).Nodup → s.popped.Nodup
  length : s.workqueue.length = s.queuestat + census pastWait s.pc + census owesPost s.pc
  nonempty : ∀ t, pastWait (s.pc t) = true → s.workqueue ≠ []
  noSkip : ∀ t, s.pc t ≠ .runSkip
  live : ¬ Stalled worker s

/-- What a step preserves. -/
structure Sound (worker : T → Bool) (s : Pool T R) : Prop where
  inOrder : InOrder s
  answered : Answered s
  handled : Handled s
  counted : Counted s
  inRole : InRole worker s

/-- The pool starts sound. -/
theorem sound_create : Sound worker (create R worker maxRequests) := by
  have hpc (t : T) : face ((create R worker maxRequests).pc t) = { running := worker t } := by
    rw [create_pc]
    split <;> simp_all [face]
  have hwait : census pastWait (create R worker maxRequests).pc = 0 :=
    census_eq_zero.mpr fun t => by rw [pastWait, hpc]
  have hpost : census owesPost (create R worker maxRequests).pc = 0 :=
    census_eq_zero.mpr fun t => by rw [owesPost, hpc]
  refine ⟨rfl, ?_, ?_, ⟨?_, ?_⟩, ?_⟩
  · intro t
    rw [hpc]
    rfl
  · intro r
    have hhand : census (hasInHand r) (create R worker maxRequests).pc = 0 :=
      census_eq_zero.mpr fun t => by
        rw [hasInHand, hpc]
        rfl
    rw [hhand]
    rfl
  · rw [hwait, hpost]
    rfl
  · intro t
    rw [create_pc]
    split <;> simp
  · intro t
    rw [hpc]

/-- A statement keeps the pool sound. -/
theorem Sound.step (h : Sound worker s) (hstep : Step release s a s') : Sound worker s' := by
  obtain ⟨t, hchange⟩ := step_change hstep
  exact ⟨h.inOrder.change hchange, h.answered.change hchange, h.handled.change hchange,
    h.counted.change hchange, h.inRole.change hchange⟩

/-- In a sound pool every request is accounted for. -/
theorem Sound.accounted (h : Sound worker s) : Accounted worker s := by
  have hnonempty : ∀ t, pastWait (s.pc t) = true → s.workqueue ≠ [] := by
    intro t ht hnil
    have hpos := census_pos ht
    have hlen := h.counted.length
    rw [hnil, List.length_nil] at hlen
    omega
  refine ⟨h.inOrder, h.answered, h.handled, ?_, h.counted.length, hnonempty, h.counted.noSkip, ?_⟩
  · intro hnodup
    rw [← h.inOrder] at hnodup
    exact hnodup.of_append_left
  · intro hstalled
    have hwait : census pastWait s.pc = 0 := by
      rw [census_eq_zero]
      intro t
      have hrole := h.inRole t
      cases hworker : worker t with
      | true =>
        rw [hstalled.waiting t hworker]
        rfl
      | false =>
        rw [hworker] at hrole
        cases hpc : s.pc t <;> rw [hpc] at hrole <;> first | rfl | cases hrole
    have hpost : census owesPost s.pc = 0 := census_eq_zero.mpr hstalled.noPost
    have hlen := h.counted.length
    rw [hwait, hpost, hstalled.zero] at hlen
    exact hstalled.queued (List.length_eq_zero_iff.mp hlen)

/-- In every state of a run, whatever the threads do in which order: the requests that were
taken and those in the queue are the requests that were pushed, in order; those are the requests
that `append` returns `true` for; each one that was taken is processed once. The length of the
queue is what the semaphore and the places of the threads say, no worker finds the queue empty,
and no request is left while all workers wait. -/
theorem requests_accounted
    (hrun : Run (Step unlockDocumented) (fun _ _ => True) (create R worker maxRequests) s) :
    Accounted worker s := by
  have hsound : Sound worker s :=
    hrun.invariant sound_create fun _ _ _ h hstep _ => h.step hstep
  exact hsound.accounted

end Accounting

/-- A thread appends a request, and the one worker takes and processes it. -/
def oneRequest : List (ThreadPool.Action Bool Nat) :=
  [.append false (some 7)] ++ List.replicate 5 (.advance false) ++ List.replicate 7 (.advance true)

def afterOne : Option (Pool Bool Nat) :=
  schedule (perform unlockDocumented) (fun _ _ => True) (create Nat id 10000) oneRequest

/-- One request through the pool. -/
theorem requests_accounted_one : Accounted id (afterOne.get (by decide)) ∧
    (afterOne.get (by decide)).processed = [7] :=
  ⟨requests_accounted (Run.refl.of_schedule (fun _ _ _ h => h) (Option.some_get _).symm), by decide⟩

end ServerListings.Analysis.PoolOrder
