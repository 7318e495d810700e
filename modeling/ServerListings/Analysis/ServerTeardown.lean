import ServerListings.Lib.Transition
import ServerListings.Model.WebMain

/-!
# When the web server tears itself down

The statements that close the descriptors and delete the connections and the pool stand in the
body of the event loop, behind the loop over one batch of events. As long as `main` takes no step
at the end of a batch, everything stays open and alive. It comes to them at the end of its first
batch, also when `epoll_wait` was interrupted, and the destructor of the pool neither wakes nor
joins the workers. No second batch is ever taken.
-/

set_option autoImplicit false

namespace ServerListings.Analysis.ServerTeardown

open Lib.Transition ServerListings.Model ServerListings.Model.WebMain
open ServerListings.Model.ThreadPool (Pc Pool MutexCall)
open ServerListings.Model.WebServer (defaultMaxRequests)

section Lifetime

variable {W : Type} {release : MutexCall} {listener : Int} {maxRequests : Nat}
  {s s₀ s' : Process W} {a : Action W} {cond : Process W → Action W → Prop}

/-- `main` is in its event loop. -/
def InLoop : MainPc → Prop
  | .waiting | .handling _ | .appending _ => True
  | _ => False

/-- The worker is blocked in `wait`, takes a request out of the queue or runs `process`. -/
def serves : Pc Int → Bool
  | .runWait | .runLock | .runEmpty | .runSkip | .runFront | .runUnlock _ => true
  | v => processes v

/-- Unless `epoll_wait` has failed, nothing is torn down and `main` is in its event loop. No
worker serves a pool that was deleted or processes a connection that was. -/
structure Safe (s : Process W) : Prop where
  descriptors : s.waitFailed = false → s.epollfd = true ∧ s.listenfd = true
  objects : s.waitFailed = false → s.users = true ∧ s.pool = true
  loop : s.waitFailed = false → InLoop s.main
  pool : ∀ w, serves (s.threads.pc (some w)) = true → s.pool = true
  users : ∀ w, processes (s.threads.pc (some w)) = true → s.users = true

/-- Nothing was torn down, and `main` has left its loop only if `epoll_wait` failed. -/
structure Up (s : Process W) : Prop where
  descriptors : s.epollfd = true ∧ s.listenfd = true
  objects : s.users = true ∧ s.pool = true
  loop : s.waitFailed = false → InLoop s.main
  failed : s.waitFailed = true → s.main = .ended

/-- Where nothing was torn down everything that is used is there. -/
theorem Up.safe (h : Up s) : Safe s :=
  ⟨fun _ => h.descriptors, fun _ => h.objects, h.loop, fun _ _ => h.objects.2,
    fun _ _ => h.objects.1⟩

/-- At the start nothing was torn down. -/
theorem up_start : Up (start W listener maxRequests) :=
  ⟨⟨rfl, rfl⟩, ⟨rfl, rfl⟩, fun _ => trivial, fun h => by cases h⟩

/-- `main` goes on unless `epoll_wait` has failed. -/
theorem Up.running (h : Up s) (hm : s.main ≠ .ended) : s.waitFailed = false := by
  cases hf : s.waitFailed with
  | false => rfl
  | true => exact absurd (h.failed hf) hm

/-- What a step does that is none of the statements behind the loop over the events. -/
inductive Change (s : Process W) : Process W → Prop
  | loops (m : MainPc) (threads : Pool (Option W) Int) (hmain : s.main ≠ .ended) (hm : InLoop m)
      (hnot : m ≠ .waiting) : Change s { s with main := m, threads := threads }
  | failed (hmain : s.main = .waiting) : Change s { s with main := .ended, waitFailed := true }
  | works (threads : Pool (Option W) Int) : Change s { s with threads := threads }

variable [DecidableEq W]

/-- The steps that do not tear down. -/
theorem step_change (hstep : Step release s a s') (ha : a ≠ .teardown) : Change s s' := by
  cases a with
  | wait result =>
    change s.wait result = some s' at hstep
    unfold Process.wait at hstep
    split at hstep
    · rename_i batch hmain
      obtain rfl := Option.some.inj hstep
      exact .loops _ s.threads (by rw [hmain]; simp) trivial (by simp)
    · rename_i hmain
      obtain rfl := Option.some.inj hstep
      exact .loops _ s.threads (by rw [hmain]; simp) trivial (by simp)
    · rename_i hmain
      obtain rfl := Option.some.inj hstep
      exact .failed hmain
    · cases hstep
  | handle readOk =>
    change s.handle readOk = some s' at hstep
    unfold Process.handle at hstep
    split at hstep
    · rename_i d rest hmain
      have hrunning : s.main ≠ .ended := by
        rw [hmain]
        simp
      split at hstep
      · obtain ⟨threads, -, rfl⟩ := Option.map_eq_some_iff.mp hstep
        exact .loops _ threads hrunning trivial (by simp)
      · obtain rfl := Option.some.inj hstep
        exact .loops _ s.threads hrunning trivial (by simp)
    · cases hstep
  | main =>
    change s.inAppend release = some s' at hstep
    unfold Process.inAppend at hstep
    split at hstep
    · rename_i rest hmain
      obtain ⟨threads, -, rfl⟩ := Option.map_eq_some_iff.mp hstep
      apply Change.loops _ threads
      · rw [hmain]
        simp
      · split <;> trivial
      · split <;> simp
    · cases hstep
  | teardown => exact absurd rfl ha
  | work w =>
    change s.work release w = some s' at hstep
    unfold Process.work at hstep
    split at hstep
    · cases hstep
    · obtain ⟨threads, -, rfl⟩ := Option.map_eq_some_iff.mp hstep
      exact .works threads

omit [DecidableEq W] in
/-- These steps leave everything in place. -/
theorem Up.change (h : Up s) (hchange : Change s s') : Up s' := by
  cases hchange with
  | loops m threads hmain hm hnot =>
    refine ⟨h.descriptors, h.objects, fun _ => hm, fun hf => ?_⟩
    exact absurd (h.failed hf) hmain
  | failed hmain =>
    refine ⟨h.descriptors, h.objects, fun hf => ?_, fun _ => rfl⟩
    cases hf
  | works threads => exact ⟨h.descriptors, h.objects, h.loop, h.failed⟩

/-- The first statement behind the loop over the events closes `epollfd`. -/
theorem Up.teardown (h : Up s) (hstep : Step release s .teardown s') : ¬ Safe s' := by
  intro hsafe
  change s.teardown = some s' at hstep
  unfold Process.teardown at hstep
  cases hmain : s.main with
  | handling rest =>
    have hrunning := h.running (by rw [hmain]; simp)
    cases rest with
    | nil =>
      rw [hmain] at hstep
      obtain rfl := Option.some.inj hstep
      cases (hsafe.descriptors hrunning).1
    | cons d rest =>
      rw [hmain] at hstep
      cases hstep
  | closeListenfd | deleteUsers | deletePool | returning =>
    exact absurd (h.loop (h.running (by rw [hmain]; simp))) (by rw [hmain]; exact id)
  | waiting | appending rest | ended =>
    rw [hmain] at hstep
    cases hstep

/-- In every state of a run in which `main` takes no step at the end of a batch, nothing that is
used was torn down. The first such step ends this. -/
theorem nothing_torn_down
    (hrun : Run (Step release) (fun _ a => a ≠ .teardown) (start W listener maxRequests) s) :
    Safe s ∧ ∀ s', Step release s .teardown s' → ¬ Safe s' := by
  have h : Up s := hrun.invariant up_start fun _ _ _ h hstep ha => h.change (step_change hstep ha)
  exact ⟨h.safe, fun _ hstep => h.teardown hstep⟩

/-! ## The second batch -/

/-- After its first batch `main` does not come to `epoll_wait` again. -/
theorem main_ne_waiting (hstep : Step release s a s') (hmain : s.main ≠ .waiting) :
    s'.main ≠ .waiting := by
  by_cases ha : a = .teardown
  · subst ha
    change s.teardown = some s' at hstep
    unfold Process.teardown at hstep
    split at hstep <;> first
      | (obtain rfl := Option.some.inj hstep; simp)
      | cases hstep
  · cases step_change hstep ha with
    | loops m threads hloop hm hnot => exact hnot
    | failed hwaiting => exact absurd hwaiting hmain
    | works threads => exact hmain

/-- Once `main` has returned from `epoll_wait` it does not come to it again. -/
theorem no_second_batch (hrun : Run (Step release) cond s₀ s) (hmain : s₀.main ≠ .waiting) :
    s.main ≠ .waiting :=
  hrun.invariant hmain fun _ _ _ h hstep _ => main_ne_waiting hstep h

end Lifetime

/-! ## The default pool -/

/-- One connection is accepted, and `main` is at the end of the batch. -/
def firstBatch : List (Action (Fin 8)) :=
  [.work 0, .wait (.events [⟨3, false, true, false⟩]), .handle false]

def afterBatch : Option (Process (Fin 8)) :=
  schedule (Process.perform ThreadPool.unlock) (fun _ a => a ≠ .teardown)
    (start (Fin 8) 3 defaultMaxRequests) firstBatch

/-- At the end of the first batch everything is there. -/
theorem nothing_torn_down_batch : Safe (afterBatch.get (by decide)) :=
  (nothing_torn_down (Run.refl.of_schedule (fun _ _ _ h => h) (Option.some_get _).symm)).1

def afterTeardown : Option (Process (Fin 8)) :=
  schedule (Process.perform ThreadPool.unlock) (fun _ _ => True)
    (start (Fin 8) 3 defaultMaxRequests) (firstBatch ++ List.replicate 4 .teardown)

/-- A worker is blocked in `wait` of the pool that was deleted. -/
theorem pool_deleted_under_worker : ¬ ∀ s : Process (Fin 8),
    Run (Step ThreadPool.unlock) (fun _ _ => True)
      (start (Fin 8) 3 defaultMaxRequests) s → Safe s := by
  intro hall
  have hsafe := hall (afterTeardown.get (by decide)) (Run.refl.of_schedule (fun _ _ _ h => h) (Option.some_get _).symm)
  have hpool := hsafe.pool 0 (by decide)
  exact absurd hpool (by decide)

end ServerListings.Analysis.ServerTeardown
