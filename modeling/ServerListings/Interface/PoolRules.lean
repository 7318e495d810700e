import ServerListings.Lib.Threads
import ServerListings.Lib.Transition
import ServerListings.Model.ThreadPool

/-!
# The rules of the thread pool

What the place of a thread says about it is `Pc.face`. From it come the facts over all threads:
the mutex belongs to the thread that is inside the critical section, and the queue is as long as
the semaphore, the workers that are past `wait` and the calls of `append` that owe a `post` say.
A step changes the face of one thread in one of a few ways, and there is a rule for each.
-/

set_option autoImplicit false

namespace ServerListings.Interface.PoolRules

open Lib.Threads ServerListings.Model ServerListings.Model.ThreadPool

/-! ## What a place says -/

/-- `inside`: between the return of `lock()` and the end of `unlock()`. `pastWait`: past `wait`,
with the element of the queue not taken. `owesPost`: after `push_back` and before `post`.
`unreturned` is the request of a call of `append` that has pushed it, `inHand` the one that a
worker has taken and not processed. -/
structure Face (R : Type) where
  running : Bool := false
  inside : Bool := false
  pastWait : Bool := false
  owesPost : Bool := false
  unreturned : List (Option R) := []
  inHand : Option R := none

def face {R : Type} : Pc R → Face R
  | .idle | .appendLock _ => {}
  | .appendTest _ | .appendRefuse _ | .appendPush _ => { inside := true }
  | .appendUnlock request => { inside := true, owesPost := true, unreturned := [request] }
  | .appendPost request => { owesPost := true, unreturned := [request] }
  | .runTest | .runWait | .stopped => { running := true }
  | .runLock => { running := true, pastWait := true }
  | .runEmpty | .runSkip | .runFront => { running := true, inside := true, pastWait := true }
  | .runUnlock request => { running := true, inside := true, inHand := request }
  | .runProcess request => { running := true, inHand := request }

def inside {R : Type} (v : Pc R) : Prop := (face v).inside = true

/-- What a step of `t` does. Most steps change the place of the thread and nothing that the place
says; the others are the calls for the mutex and the steps that change the data. -/
inductive Change {T R : Type} [DecidableEq T] (release : MutexCall) (s : Pool T R) (t : T) :
    Pool T R → Prop where
  | quiet (v : Pc R) (hface : face v = face (s.pc t)) (hempty : v = .runSkip → s.workqueue = []) :
      Change release s t (s.goto t v)
  | locked (v : Pc R) (hfree : s.queuelocker = none) (hv : v ≠ .runSkip)
      (hface : face v = { face (s.pc t) with inside := true }) :
      Change release s t { s.goto t v with queuelocker := some t }
  | unlocked (v : Pc R) (s' : Pool T R) (hcall : s.mutexCall release t v = some s')
      (hin : inside (s.pc t)) (hv : v ≠ .runSkip)
      (hface : face v = { face (s.pc t) with inside := false }) : Change release s t s'
  | refused (request : Option R) (s' : Pool T R) (hpc : s.pc t = .appendRefuse request)
      (hcall : s.mutexCall release t .idle = some s') :
      Change release s t (s'.ret t request false)
  | skipped (s' : Pool T R) (hpc : s.pc t = .runSkip)
      (hcall : s.mutexCall release t .runTest = some s') : Change release s t s'
  | pushed (request : Option R) (hpc : s.pc t = .appendPush request) :
      Change release s t { s.goto t (.appendUnlock request) with
        workqueue := s.workqueue ++ [request], pushed := s.pushed ++ [(t, request)] }
  | posted (request : Option R) (hpc : s.pc t = .appendPost request) :
      Change release s t
        (Pool.ret { s.goto t .idle with queuestat := s.queuestat + 1 } t request true)
  | waited (hpc : s.pc t = .runWait) (hpos : s.queuestat ≠ 0) :
      Change release s t { s.goto t .runLock with queuestat := s.queuestat - 1 }
  | popped (request : Option R) (rest : List (Option R)) (hpc : s.pc t = .runFront)
      (hqueue : s.workqueue = request :: rest) :
      Change release s t { s.goto t (.runUnlock request) with
        workqueue := rest, popped := s.popped ++ [request] }
  | processed (r : R) (hpc : s.pc t = .runProcess (some r)) :
      Change release s t { s.goto t .runTest with processed := s.processed ++ [r] }

section Steps

variable {T R : Type} [DecidableEq T] {release : MutexCall} {s s' : Pool T R} {a : Action T R}
  {t u : T} {v : Pc R}

/-- A thread goes on, and the others stay where they are. -/
theorem goto_pc (s : Pool T R) (t : T) (v : Pc R) : (s.goto t v).pc = Function.update s.pc t v := rfl

/-- The thread is where it has gone. -/
theorem goto_self (s : Pool T R) (t : T) (v : Pc R) : (s.goto t v).pc t = v := Function.update_self ..

omit [DecidableEq T] in
/-- The workers begin in `run`, the other threads outside of the pool. -/
theorem create_pc (worker : T → Bool) (maxRequests : Nat) (t : T) :
    (create R worker maxRequests).pc t = if worker t then .runTest else .idle := rfl

/-- A thread that gets the mutex found it free. -/
theorem mutexCall_lock (h : s.mutexCall .pthreadMutexLock t v = some s') :
    s.queuelocker = none ∧ s' = { s.goto t v with queuelocker := some t } := by
  unfold Pool.mutexCall MutexCall.perform at h
  cases hfree : s.queuelocker with
  | none =>
    rw [hfree] at h
    exact ⟨rfl, (Option.some.inj h).symm⟩
  | some u =>
    rw [hfree] at h
    cases h

/-- Every step inside the pool is one of the changes. -/
theorem advance_change (h : s.advance release t = some s') : Change release s t s' := by
  unfold Pool.advance at h
  cases hpc : s.pc t <;> simp only [hpc] at h
  case idle => cases h
  case stopped => cases h
  case appendLock | runLock =>
    obtain ⟨hfree, rfl⟩ := mutexCall_lock h
    exact .locked _ hfree (by simp) (by rw [hpc]; rfl)
  case appendUnlock | runUnlock =>
    exact .unlocked _ _ h (by rw [hpc]; rfl) (by simp) (by rw [hpc]; rfl)
  case appendRefuse request =>
    obtain ⟨s₁, hcall, rfl⟩ := Option.map_eq_some_iff.mp h
    exact .refused request s₁ hpc hcall
  case runSkip => exact .skipped _ hpc h
  case appendPush request =>
    obtain rfl := Option.some.inj h
    exact .pushed request hpc
  case appendPost request =>
    obtain rfl := Option.some.inj h
    exact .posted request hpc
  case appendTest | runTest =>
    split at h
    · obtain rfl := Option.some.inj h
      exact .quiet _ (by rw [hpc]; rfl) (by simp)
    · obtain rfl := Option.some.inj h
      exact .quiet _ (by rw [hpc]; rfl) (by simp)
  case runEmpty =>
    split at h
    · obtain rfl := Option.some.inj h
      exact .quiet _ (by rw [hpc]; rfl) fun _ => ‹_›
    · obtain rfl := Option.some.inj h
      exact .quiet _ (by rw [hpc]; rfl) (by simp)
  case runWait =>
    split at h
    · cases h
    · obtain rfl := Option.some.inj h
      exact .waited hpc ‹_›
  case runFront =>
    split at h
    · cases h
    · obtain rfl := Option.some.inj h
      exact .popped _ _ hpc ‹_›
  case runProcess request =>
    split at h
    · obtain rfl := Option.some.inj h
      exact .quiet _ (by rw [hpc]; rfl) (by simp)
    · obtain rfl := Option.some.inj h
      exact .processed _ hpc

/-- A call of `append` begins at the mutex. -/
theorem append_eq {request : Option R} (h : s.append t request = some s') :
    s.pc t = .idle ∧ s' = s.goto t (.appendLock request) := by
  unfold Pool.append at h
  cases hpc : s.pc t <;> simp only [hpc] at h
  case idle => exact ⟨rfl, (Option.some.inj h).symm⟩
  all_goals cases h

/-- A step is a change of one thread. -/
theorem step_change (h : Step release s a s') : ∃ t, Change release s t s' := by
  cases a with
  | append t request =>
    obtain ⟨hidle, rfl⟩ := append_eq h
    exact ⟨t, .quiet _ (by rw [hidle]; rfl) (by simp)⟩
  | advance t => exact ⟨t, advance_change h⟩

/-! ## The mutex -/

/-- The mutex belongs to the thread that is inside the critical section. -/
def Guarded (s : Pool T R) : Prop := Exclusive inside s.queuelocker s.pc

omit [DecidableEq T] in
/-- At first the mutex is free and nobody is inside. -/
theorem Guarded.create (worker : T → Bool) (maxRequests : Nat) :
    Guarded (create R worker maxRequests) := by
  intro t
  constructor
  · intro h
    cases h
  · intro h
    rw [inside, create_pc] at h
    split at h <;> cases h

/-- A thread stays inside or outside. -/
theorem Guarded.moved (h : Guarded s) (howner : s'.queuelocker = s.queuelocker)
    (hmove : s'.pc = Function.update s.pc t v)
    (hface : (face v).inside = (face (s.pc t)).inside) : Guarded s' := by
  unfold Guarded
  rw [howner, hmove]
  exact h.move (by rw [inside, inside, hface])

/-- The owner of the mutex gives it back. As listing 14-2 has it, the call does not return. -/
theorem Guarded.unlock (h : Guarded s) (hcall : s.mutexCall release t v = some s')
    (hin : inside (s.pc t)) (hv : ¬ inside v) : Guarded s' := by
  have howner : s.queuelocker = some t := (h t).mpr hin
  cases release with
  | pthreadMutexLock =>
    obtain ⟨hfree, -⟩ := mutexCall_lock hcall
    rw [howner] at hfree
    cases hfree
  | pthreadMutexUnlock =>
    obtain rfl := Option.some.inj hcall
    unfold Guarded at h
    rw [howner] at h
    exact h.release hv

/-- A change of a thread keeps the mutex with the one that is inside. -/
theorem Guarded.change (h : Guarded s) (hchange : Change release s t s') : Guarded s' := by
  cases hchange with
  | quiet v hface => exact h.moved rfl rfl (by rw [hface])
  | locked v hfree hv hface =>
    unfold Guarded at h
    rw [hfree] at h
    exact h.acquire (by rw [inside, hface])
  | unlocked v s' hcall hin hv hface => exact h.unlock hcall hin (by simp [inside, hface])
  | refused request s' hpc hcall =>
    have hs : Guarded s' := h.unlock hcall (by rw [hpc]; rfl) (by simp [inside, face])
    exact hs
  | skipped s' hpc hcall => exact h.unlock hcall (by rw [hpc]; rfl) (by simp [inside, face])
  | pushed request hpc => exact h.moved rfl rfl (by rw [hpc]; rfl)
  | posted request hpc => exact h.moved rfl rfl (by rw [hpc]; rfl)
  | waited hpc hpos => exact h.moved rfl rfl (by rw [hpc]; rfl)
  | popped request rest hpc hqueue => exact h.moved rfl rfl (by rw [hpc]; rfl)
  | processed r hpc => exact h.moved rfl rfl (by rw [hpc]; rfl)

/-- Every step keeps the mutex with the thread that is inside. -/
theorem Guarded.step (h : Guarded s) (hstep : Step release s a s') : Guarded s' := by
  obtain ⟨t, hchange⟩ := step_change hstep
  exact h.change hchange

/-! ## The requests -/

/-- The requests that a thread has pushed. -/
def pushedBy (s : Pool T R) (u : T) : List (Option R) :=
  (s.pushed.filter fun e => e.1 = u).map Prod.snd

/-- The requests of the calls of a thread that have returned `true`. -/
def acceptedBy (s : Pool T R) (u : T) : List (Option R) :=
  (s.returned.filter fun e => e.1 = u ∧ e.2.2 = true).map fun e => e.2.1

def pastWait (v : Pc R) : Bool := (face v).pastWait

def owesPost (v : Pc R) : Bool := (face v).owesPost

def hasInHand [DecidableEq R] (r : R) (v : Pc R) : Bool := (face v).inHand = some r

/-- A call for the mutex changes its owner and the place of the thread only. -/
theorem mutexCall_eq (h : s.mutexCall release t v = some s') :
    ∃ owner, s' = { s.goto t v with queuelocker := owner } := by
  obtain ⟨owner, -, rfl⟩ := Option.map_eq_some_iff.mp h
  exact ⟨owner, rfl⟩

/-- After a call for the mutex the thread is behind it. -/
theorem mutexCall_pc (h : s.mutexCall release t v = some s') : s'.pc t = v := by
  obtain ⟨owner, rfl⟩ := mutexCall_eq h
  exact goto_self ..

/-- The elements of the queue are those that were pushed and not taken, in order. -/
def InOrder (s : Pool T R) : Prop := s.popped ++ s.workqueue = s.pushed.map Prod.snd

/-- Every change keeps the queue in order. -/
theorem InOrder.change (h : InOrder s) (hchange : Change release s t s') : InOrder s' := by
  cases hchange with
  | quiet v => exact h
  | locked v => exact h
  | unlocked v s' hcall =>
    obtain ⟨owner, rfl⟩ := mutexCall_eq hcall
    exact h
  | refused request s' hpc hcall =>
    obtain ⟨owner, rfl⟩ := mutexCall_eq hcall
    exact h
  | skipped s' hpc hcall =>
    obtain ⟨owner, rfl⟩ := mutexCall_eq hcall
    exact h
  | pushed request hpc =>
    change s.popped ++ (s.workqueue ++ [request]) = (s.pushed ++ [(t, request)]).map Prod.snd
    rw [← List.append_assoc, h, List.map_append]
    rfl
  | posted request hpc => exact h
  | waited hpc hpos => exact h
  | popped request rest hpc hqueue =>
    change s.popped ++ [request] ++ rest = s.pushed.map Prod.snd
    rw [List.append_assoc, List.singleton_append, ← hqueue]
    exact h
  | processed r hpc => exact h

/-- A thread has pushed the requests of its calls that returned `true`, and that of a call that
is going to. -/
def Answered (s : Pool T R) : Prop :=
  ∀ u, pushedBy s u = acceptedBy s u ++ (face (s.pc u)).unreturned

/-- A refused request was not accepted. -/
theorem acceptedBy_refused {request : Option R} :
    acceptedBy (s.ret t request false) u = acceptedBy s u := by
  simp [acceptedBy, Pool.ret, List.filter_append]

/-- A thread moves and keeps the request that it has not returned for. -/
theorem Answered.moved (h : Answered s) (hpushed : s'.pushed = s.pushed)
    (haccepted : ∀ u, acceptedBy s' u = acceptedBy s u) (hmove : s'.pc = Function.update s.pc t v)
    (hface : (face v).unreturned = (face (s.pc t)).unreturned) : Answered s' := by
  intro u
  have hu := h u
  rw [pushedBy, hpushed, ← pushedBy, haccepted, hmove, hu]
  by_cases hut : u = t
  · rw [hut, Function.update_self, hface]
  · rw [Function.update_of_ne hut]

/-- Every change keeps the answers in step with what was pushed. -/
theorem Answered.change (h : Answered s) (hchange : Change release s t s') : Answered s' := by
  cases hchange with
  | quiet v hface => exact h.moved rfl (fun _ => rfl) rfl (by rw [hface])
  | locked v hfree hv hface => exact h.moved rfl (fun _ => rfl) rfl (by rw [hface])
  | unlocked v s' hcall hin hv hface =>
    obtain ⟨owner, rfl⟩ := mutexCall_eq hcall
    exact h.moved rfl (fun _ => rfl) rfl (by rw [hface])
  | refused request s' hpc hcall =>
    obtain ⟨owner, rfl⟩ := mutexCall_eq hcall
    exact h.moved rfl (fun _ => acceptedBy_refused) rfl (by rw [hpc]; rfl)
  | skipped s' hpc hcall =>
    obtain ⟨owner, rfl⟩ := mutexCall_eq hcall
    exact h.moved rfl (fun _ => rfl) rfl (by rw [hpc]; rfl)
  | pushed request hpc =>
    intro u
    by_cases hu : u = t
    · subst hu
      have hbefore := h u
      rw [hpc] at hbefore
      simp only [pushedBy, acceptedBy, Pool.goto, Function.update_self] at hbefore ⊢
      simp [List.filter_append, hbefore, face]
    · have hbefore := h u
      simp only [pushedBy, acceptedBy, Pool.goto, Function.update_of_ne hu] at hbefore ⊢
      simp [List.filter_append, hbefore, Ne.symm hu]
  | posted request hpc =>
    intro u
    by_cases hu : u = t
    · subst hu
      have hbefore := h u
      rw [hpc] at hbefore
      simp only [pushedBy, acceptedBy, Pool.ret, Pool.goto, Function.update_self] at hbefore ⊢
      simp [List.filter_append, hbefore, face]
    · have hbefore := h u
      simp only [pushedBy, acceptedBy, Pool.ret, Pool.goto, Function.update_of_ne hu] at hbefore ⊢
      simp [List.filter_append, hbefore, Ne.symm hu]
  | waited hpc hpos => exact h.moved rfl (fun _ => rfl) rfl (by rw [hpc]; rfl)
  | popped request rest hpc hqueue => exact h.moved rfl (fun _ => rfl) rfl (by rw [hpc]; rfl)
  | processed r hpc => exact h.moved rfl (fun _ => rfl) rfl (by rw [hpc]; rfl)

section Counting

variable [Fintype T]

/-- The queue is as long as the semaphore and the threads between it and the queue say, and no
worker finds the queue empty. -/
structure Counted (s : Pool T R) : Prop where
  length : s.workqueue.length = s.queuestat + census pastWait s.pc + census owesPost s.pc
  noSkip : ∀ u, s.pc u ≠ .runSkip

omit [Fintype T] in
/-- A thread that goes elsewhere has not found the queue empty. -/
theorem noSkip_goto (h : ∀ u, s.pc u ≠ .runSkip) (hv : v ≠ .runSkip) :
    ∀ u, (s.goto t v).pc u ≠ .runSkip := by
  intro u
  by_cases hu : u = t
  · rw [goto_pc, hu, Function.update_self]
    exact hv
  · rw [goto_pc, Function.update_of_ne hu]
    exact h u

/-- A step that leaves the thread on its side of the semaphore. -/
theorem Counted.moved (h : Counted s) (hqueue : s'.workqueue = s.workqueue)
    (hstat : s'.queuestat = s.queuestat) (hmove : s'.pc = Function.update s.pc t v)
    (hv : v ≠ .runSkip) (hwait : (face v).pastWait = (face (s.pc t)).pastWait)
    (hpost : (face v).owesPost = (face (s.pc t)).owesPost) : Counted s' := by
  constructor
  · have hwaiting : census pastWait (Function.update s.pc t v) = census pastWait s.pc :=
      census_update_same hwait
    have hposting : census owesPost (Function.update s.pc t v) = census owesPost s.pc :=
      census_update_same hpost
    rw [hqueue, hstat, hmove, hwaiting, hposting]
    exact h.length
  · rw [hmove]
    exact noSkip_goto h.noSkip hv

/-- Every change keeps the count of the semaphore. -/
theorem Counted.change (h : Counted s) (hchange : Change release s t s') : Counted s' := by
  cases hchange with
  | quiet v hface hempty =>
    refine h.moved rfl rfl rfl ?_ ?_ ?_
    · intro hv
      have hwait : pastWait (s.pc t) = true := by
        rw [pastWait, ← hface, hv]
        rfl
      have hpos := census_pos hwait
      have hlen := h.length
      rw [hempty hv, List.length_nil] at hlen
      omega
    · rw [hface]
    · rw [hface]
  | locked v hfree hv hface =>
    exact h.moved rfl rfl rfl hv (by rw [hface]) (by rw [hface])
  | unlocked v s' hcall hin hv hface =>
    obtain ⟨owner, rfl⟩ := mutexCall_eq hcall
    exact h.moved rfl rfl rfl hv (by rw [hface]) (by rw [hface])
  | refused request s' hpc hcall =>
    obtain ⟨owner, rfl⟩ := mutexCall_eq hcall
    exact h.moved rfl rfl rfl (by simp) (by rw [hpc]; rfl) (by rw [hpc]; rfl)
  | skipped s' hpc hcall => exact absurd hpc (h.noSkip t)
  | pushed request hpc =>
    refine ⟨?_, noSkip_goto h.noSkip (by simp)⟩
    have hwait : census pastWait (Function.update s.pc t (.appendUnlock request)) =
        census pastWait s.pc := census_update_same (by rw [hpc]; rfl)
    have hpost : census owesPost (Function.update s.pc t (.appendUnlock request)) =
        census owesPost s.pc + 1 := census_gain (by rw [hpc]; rfl) rfl
    have hlen := h.length
    simp only [Pool.goto, List.length_append, List.length_singleton, hwait, hpost]
    omega
  | posted request hpc =>
    refine ⟨?_, noSkip_goto h.noSkip (by simp)⟩
    have hwait : census pastWait (Function.update s.pc t .idle) = census pastWait s.pc :=
      census_update_same (by rw [hpc]; rfl)
    have hpost : census owesPost (Function.update s.pc t .idle) + 1 = census owesPost s.pc :=
      census_loss (by rw [hpc]; rfl) rfl
    have hlen := h.length
    simp only [Pool.ret, Pool.goto, hwait]
    omega
  | waited hpc hpos =>
    refine ⟨?_, noSkip_goto h.noSkip (by simp)⟩
    have hwait : census pastWait (Function.update s.pc t .runLock) = census pastWait s.pc + 1 :=
      census_gain (by rw [hpc]; rfl) rfl
    have hpost : census owesPost (Function.update s.pc t .runLock) = census owesPost s.pc :=
      census_update_same (by rw [hpc]; rfl)
    have hlen := h.length
    simp only [Pool.goto, hwait, hpost]
    omega
  | popped request rest hpc hqueue =>
    refine ⟨?_, noSkip_goto h.noSkip (by simp)⟩
    have hwait : census pastWait (Function.update s.pc t (.runUnlock request)) + 1 =
        census pastWait s.pc := census_loss (by rw [hpc]; rfl) rfl
    have hpost : census owesPost (Function.update s.pc t (.runUnlock request)) =
        census owesPost s.pc := census_update_same (by rw [hpc]; rfl)
    have hlen := h.length
    rw [hqueue, List.length_cons] at hlen
    simp only [Pool.goto, hpost]
    omega
  | processed r hpc =>
    exact h.moved rfl rfl rfl (by simp) (by rw [hpc]; rfl) (by rw [hpc]; rfl)

/-- A request that was taken is in the hands of one worker until it is processed. -/
def Handled [DecidableEq R] (s : Pool T R) : Prop :=
  ∀ r, s.popped.count (some r) = s.processed.count r + census (hasInHand r) s.pc

/-- A thread moves and keeps what it has in hand. -/
theorem Handled.moved [DecidableEq R] (h : Handled s) (hpopped : s'.popped = s.popped)
    (hprocessed : s'.processed = s.processed) (hmove : s'.pc = Function.update s.pc t v)
    (hface : (face v).inHand = (face (s.pc t)).inHand) : Handled s' := by
  intro r
  have hhand : census (hasInHand r) (Function.update s.pc t v) = census (hasInHand r) s.pc :=
    census_update_same (by rw [hasInHand, hasInHand, hface])
  rw [hpopped, hprocessed, hmove, hhand]
  exact h r

/-- Every change keeps each taken request in one pair of hands. -/
theorem Handled.change [DecidableEq R] (h : Handled s) (hchange : Change release s t s') :
    Handled s' := by
  cases hchange with
  | quiet v hface => exact h.moved rfl rfl rfl (by rw [hface])
  | locked v hfree hv hface => exact h.moved rfl rfl rfl (by rw [hface])
  | unlocked v s' hcall hin hv hface =>
    obtain ⟨owner, rfl⟩ := mutexCall_eq hcall
    exact h.moved rfl rfl rfl (by rw [hface])
  | refused request s' hpc hcall =>
    obtain ⟨owner, rfl⟩ := mutexCall_eq hcall
    exact h.moved rfl rfl rfl (by rw [hpc]; rfl)
  | skipped s' hpc hcall =>
    obtain ⟨owner, rfl⟩ := mutexCall_eq hcall
    exact h.moved rfl rfl rfl (by rw [hpc]; rfl)
  | pushed request hpc => exact h.moved rfl rfl rfl (by rw [hpc]; rfl)
  | posted request hpc => exact h.moved rfl rfl rfl (by rw [hpc]; rfl)
  | waited hpc hpos => exact h.moved rfl rfl rfl (by rw [hpc]; rfl)
  | popped request rest hpc hqueue =>
    intro r
    have hr := h r
    have hmove := census_update (hasInHand r) s.pc t (.runUnlock request)
    have hbefore : hasInHand r (s.pc t) = false := by
      rw [hpc]
      rfl
    have hafter : (hasInHand r (.runUnlock request)).toNat = [request].count (some r) := by
      by_cases hreq : request = some r
      · subst hreq
        simp [hasInHand, face]
      · simp [hasInHand, face, hreq]
    rw [hbefore, hafter] at hmove
    simp only [goto_pc, List.count_append]
    rw [hr, Nat.add_assoc, ← hmove]
    rfl
  | processed r hpc =>
    intro r'
    have hr := h r'
    have hmove := census_update (hasInHand r') s.pc t .runTest
    have hbefore : (hasInHand r' (s.pc t)).toNat = [r].count r' := by
      rw [hpc]
      by_cases hreq : r = r'
      · subst hreq
        simp [hasInHand, face]
      · simp [hasInHand, face, hreq]
    have hafter : hasInHand r' (.runTest : Pc R) = false := rfl
    rw [hbefore, hafter] at hmove
    simp only [goto_pc, List.count_append]
    change s.popped.count (some r') = _
    rw [hr]
    simp only [Bool.toNat_false] at hmove
    omega

end Counting

/-- The workers are in `run`, the other threads are not. -/
def InRole (worker : T → Bool) (s : Pool T R) : Prop := ∀ u, (face (s.pc u)).running = worker u

/-- A step moves its thread and leaves it in its function. -/
theorem Change.moves (h : Change release s t s') :
    ∃ v, s'.pc = Function.update s.pc t v ∧ (face v).running = (face (s.pc t)).running := by
  cases h with
  | quiet v hface => exact ⟨v, rfl, by rw [hface]⟩
  | locked v hfree hv hface => exact ⟨v, rfl, by rw [hface]⟩
  | unlocked v s' hcall hin hv hface =>
    obtain ⟨owner, rfl⟩ := mutexCall_eq hcall
    exact ⟨v, rfl, by rw [hface]⟩
  | refused request s' hpc hcall =>
    obtain ⟨owner, rfl⟩ := mutexCall_eq hcall
    exact ⟨.idle, rfl, by rw [hpc]; rfl⟩
  | skipped s' hpc hcall =>
    obtain ⟨owner, rfl⟩ := mutexCall_eq hcall
    exact ⟨.runTest, rfl, by rw [hpc]; rfl⟩
  | pushed request hpc => exact ⟨.appendUnlock request, rfl, by rw [hpc]; rfl⟩
  | posted request hpc => exact ⟨.idle, rfl, by rw [hpc]; rfl⟩
  | waited hpc hpos => exact ⟨.runLock, rfl, by rw [hpc]; rfl⟩
  | popped request rest hpc hqueue => exact ⟨.runUnlock request, rfl, by rw [hpc]; rfl⟩
  | processed r hpc => exact ⟨.runTest, rfl, by rw [hpc]; rfl⟩

/-- Every change leaves the threads in their roles. -/
theorem InRole.change {worker : T → Bool} (h : InRole worker s)
    (hchange : Change release s t s') : InRole worker s' := by
  obtain ⟨v, hpc, hrunning⟩ := hchange.moves
  intro u
  by_cases hu : u = t
  · rw [hpc, hu, Function.update_self, hrunning]
    exact h t
  · rw [hpc, Function.update_of_ne hu]
    exact h u

end Steps

end ServerListings.Interface.PoolRules
