import ServerListings.Interface.PoolRules

/-!
# Which runs of the thread pool leave the mutex free

`locker::unlock` of listing 14-2 calls `pthread_mutex_lock`. The caller owns the mutex, so it
waits for itself. Until a thread comes to such a call the mutex is where it should be; the first
thread that does blocks for ever, and the mutex stays with it. With the call that is documented
every run leaves the mutex free.
-/

set_option autoImplicit false

namespace ServerListings.Analysis.PoolMutex

open Lib.Threads Lib.Transition ServerListings.Model ServerListings.Model.ThreadPool
open ServerListings.Interface.PoolRules

section Mutex

variable {T R : Type} [DecidableEq T] {release : MutexCall} {worker : T → Bool} {maxRequests : Nat}
  {s s' : Pool T R} {a : Action T R} {t : T}

/-- The thread is in `locker::unlock`. -/
def inUnlock : Pc R → Bool
  | .appendRefuse _ | .appendUnlock _ | .runSkip | .runUnlock _ => true
  | _ => false

/-- The thread is in `pthread_mutex_lock`. -/
def inMutexLock (release : MutexCall) : Pc R → Bool
  | .appendLock _ | .runLock => true
  | v => inUnlock v && release = .pthreadMutexLock

/-- No thread waits for a mutex that it owns, and the mutex is free when no thread is between
its `lock()` and the end of its `unlock()`. -/
structure Released (release : MutexCall) (s : Pool T R) : Prop where
  noSelfWait : ∀ t, inMutexLock release (s.pc t) = true → s.queuelocker ≠ some t
  free : (∀ t, ¬ inside (s.pc t)) → s.queuelocker = none

/-- The statement of the action is followed by a call of `locker::unlock`. -/
def comesToUnlock (s : Pool T R) : Action T R → Bool
  | .append _ _ => false
  | .advance t =>
    match s.pc t with
    | .appendPush _ | .runFront => true
    | .appendTest _ => s.maxRequests < s.workqueue.length
    | .runEmpty => s.workqueue.isEmpty
    | _ => false

/-- A thread in `unlock` is still inside. -/
theorem inside_of_inUnlock {v : Pc R} (h : inUnlock v = true) : inside v := by
  cases v <;> first | rfl | cases h

/-- A thread is in `locker::unlock` after the statements before a call of it, and only then. -/
theorem advance_inUnlock (h : s.advance release t = some s') :
    inUnlock (s'.pc t) = comesToUnlock s (.advance t) := by
  unfold Pool.advance at h
  rw [comesToUnlock]
  cases hpc : s.pc t <;> simp only [hpc] at h ⊢
  case idle => cases h
  case stopped => cases h
  case appendLock | appendUnlock | runLock | runSkip | runUnlock =>
    rw [mutexCall_pc h]
    rfl
  case appendRefuse request =>
    obtain ⟨s₁, hcall, rfl⟩ := Option.map_eq_some_iff.mp h
    have hidle := mutexCall_pc hcall
    rw [Pool.ret, hidle]
    rfl
  case appendPush request =>
    obtain rfl := Option.some.inj h
    exact congrArg inUnlock (goto_self s t (.appendUnlock request))
  case appendPost request =>
    obtain rfl := Option.some.inj h
    exact congrArg inUnlock (goto_self s t .idle)
  case appendTest request =>
    split at h
    · obtain rfl := Option.some.inj h
      rw [goto_self]
      exact (decide_eq_true ‹_›).symm
    · obtain rfl := Option.some.inj h
      rw [goto_self]
      exact (decide_eq_false ‹_›).symm
  case runTest =>
    split at h <;> obtain rfl := Option.some.inj h <;> rw [goto_self] <;> rfl
  case runEmpty =>
    split at h
    · obtain rfl := Option.some.inj h
      rw [goto_self]
      exact (List.isEmpty_iff.mpr ‹_›).symm
    · obtain rfl := Option.some.inj h
      rw [goto_self]
      exact (List.isEmpty_eq_false_iff.mpr ‹_›).symm
  case runWait =>
    split at h
    · cases h
    · obtain rfl := Option.some.inj h
      exact congrArg inUnlock (goto_self s t .runLock)
  case runFront =>
    split at h
    · cases h
    · obtain rfl := Option.some.inj h
      exact congrArg inUnlock (goto_self s t (.runUnlock _))
  case runProcess request =>
    split at h
    · obtain rfl := Option.some.inj h
      rw [goto_self]
      rfl
    · obtain rfl := Option.some.inj h
      exact congrArg inUnlock (goto_self s t .runTest)

omit [DecidableEq T] in
/-- The mutex is where it should be if no thread inside the critical section is blocked. -/
theorem released_of_guarded (h : Guarded s)
    (hout : ∀ t, inMutexLock release (s.pc t) = true → ¬ inside (s.pc t)) : Released release s := by
  refine ⟨?_, h.free⟩
  intro t ht howner
  exact hout t ht ((h t).mp howner)

/-- A thread in `pthread_mutex_lock` that is not in `unlock` is outside. -/
theorem not_inside_of_inMutexLock {v : Pc R} (hunlock : inUnlock v = false)
    (h : inMutexLock release v = true) : ¬ inside v := by
  cases v <;> simp_all [inMutexLock, inUnlock, inside, face]

omit [DecidableEq T] in
/-- A thread that comes to `locker::unlock` waits for itself. -/
theorem not_released (h : Guarded s) (ht : inUnlock (s.pc t) = true) : ¬ Released unlock s := by
  intro hreleased
  have hwait : inMutexLock unlock (s.pc t) = true := by
    cases hpc : s.pc t <;> rw [hpc] at ht <;> first | rfl | cases ht
  exact hreleased.noSelfWait t hwait ((h t).mpr (inside_of_inUnlock ht))

/-- What a run keeps in which no thread comes to `locker::unlock`. -/
structure Untouched (s : Pool T R) : Prop where
  guarded : Guarded s
  noUnlock : ∀ t, inUnlock (s.pc t) = false

omit [DecidableEq T] in
/-- Nobody has come to `unlock` at the start. -/
theorem untouched_create : Untouched (create R worker maxRequests) := by
  refine ⟨Guarded.create worker maxRequests, ?_⟩
  intro t
  rw [create_pc]
  split <;> rfl

/-- A statement in front of `unlock` leaves it so. -/
theorem Untouched.step (h : Untouched s) (hstep : Step unlock s a s')
    (hcond : comesToUnlock s a = false) : Untouched s' := by
  refine ⟨h.guarded.step hstep, ?_⟩
  intro u
  cases a with
  | append t request =>
    obtain ⟨-, rfl⟩ := append_eq hstep
    by_cases hu : u = t
    · rw [hu, goto_self]
      rfl
    · rw [goto_pc, Function.update_of_ne hu]
      exact h.noUnlock u
  | advance t =>
    obtain ⟨v, hpc, -⟩ := (advance_change hstep).moves
    by_cases hu : u = t
    · rw [hu, advance_inUnlock hstep]
      exact hcond
    · rw [hpc, Function.update_of_ne hu]
      exact h.noUnlock u

/-- In every state of a run in which no thread comes to `locker::unlock`, no thread waits for a
mutex that it owns and the mutex is free when nobody is inside. The first call of
`locker::unlock` in such a run ends this. -/
theorem mutex_released (hrun : Run (Step unlock) (fun s a => comesToUnlock s a = false)
    (create R worker maxRequests) s) :
    Released unlock s ∧ ∀ a s', Step unlock s a s' → comesToUnlock s a = true →
      ¬ Released unlock s' := by
  have h : Untouched s :=
    hrun.invariant untouched_create fun _ _ _ h hstep hcond => h.step hstep hcond
  refine ⟨?_, ?_⟩
  · apply released_of_guarded h.guarded
    intro t ht
    exact not_inside_of_inMutexLock (h.noUnlock t) ht
  · intro a s' hstep hcond
    cases a with
    | append t request => cases hcond
    | advance t =>
      apply not_released (t := t) (h.guarded.step hstep)
      rw [advance_inUnlock hstep]
      exact hcond

/-- With the documented `locker::unlock` this holds of every run. -/
theorem released_documented
    (hrun : Run (Step unlockDocumented) (fun _ _ => True) (create R worker maxRequests) s) :
    Released unlockDocumented s := by
  have h : Guarded s :=
    hrun.invariant (Guarded.create worker maxRequests) fun _ _ _ h hstep _ => h.step hstep
  apply released_of_guarded h
  intro t ht
  cases hpc : s.pc t <;> rw [hpc] at ht <;>
    simp_all [inMutexLock, inUnlock, inside, face, unlockDocumented]

end Mutex

/-- A thread begins a call of `append` and gets the mutex. -/
def locked : Option (Pool Unit Nat) :=
  schedule (perform unlock) (fun s a => comesToUnlock s a = false)
    (create Nat (fun _ => false) 10000) [.append () (some 7), .advance (), .advance ()]

/-- A pool whose mutex is locked once. -/
theorem mutex_released_one : Released unlock (locked.get (by decide)) :=
  (mutex_released (Run.refl.of_schedule (fun _ _ _ h => h) (Option.some_get _).symm)).1

/-- The thread pushes the request and calls `locker::unlock`. -/
def pushed : Option (Pool Unit Nat) :=
  schedule (perform unlock) (fun _ _ => True) (create Nat (fun _ => false) 10000)
    [.append () (some 7), .advance (), .advance (), .advance ()]

/-- It is not so that the mutex is released in every run. -/
theorem waits_for_itself : ¬ ∀ s : Pool Unit Nat,
    Run (Step unlock) (fun _ _ => True) (create Nat (fun _ => false) 10000) s →
      Released unlock s := by
  intro hall
  have hreleased := hall (pushed.get (by decide)) (Run.refl.of_schedule (fun _ _ _ h => h) (Option.some_get _).symm)
  exact hreleased.noSelfWait () (by decide) (by decide)

end ServerListings.Analysis.PoolMutex
