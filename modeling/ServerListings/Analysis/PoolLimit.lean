import ServerListings.Interface.PoolRules

/-!
# How many requests the thread pool queues

`append` compares the size of the queue with `m_max_requests` and pushes if it is not larger,
so a full queue takes one request more. A thread between the comparison and the end of its
critical section keeps the others away from the queue (`Guarded`), so what the comparison has
found still holds when the thread pushes or returns `false`. With the documented
`locker::unlock`, the limit that the pool keeps is `m_max_requests + 1`, and `m_max_requests`
in the runs in which nothing is compared with a queue of just this size.
-/

set_option autoImplicit false

namespace ServerListings.Analysis.PoolLimit

open Lib.Threads Lib.Transition ServerListings.Model ServerListings.Model.ThreadPool
open ServerListings.Interface.PoolRules

section Limits

variable {T R : Type} [DecidableEq T] {release : MutexCall} {worker : T → Bool}
  {maxRequests limit : Nat} {s s' : Pool T R} {a : ServerListings.Model.ThreadPool.Action T R}
  {t u : T} {request : Option R}

/-- The queue has at most `limit` requests. A call of `append` is about to return `false` exactly
when the queue is full, and is about to push when it is not. -/
structure Limited (limit : Nat) (s : Pool T R) : Prop where
  bound : s.workqueue.length ≤ limit
  refused : ∀ t request, s.pc t = .appendRefuse request → s.workqueue.length = limit
  admitted : ∀ t request, s.pc t = .appendPush request → s.workqueue.length < limit

/-- The comparison has been made. -/
def decided : Pc R → Bool
  | .appendRefuse _ | .appendPush _ => true
  | _ => false

/-- A thread that has passed the test is in the critical section. -/
theorem inside_of_decided {v : Pc R} (h : decided v = true) : inside v := by
  cases v <;> first | rfl | cases h

omit [DecidableEq T] in
/-- What the comparison found is a fact about the threads that have made it. -/
theorem limited_iff : Limited limit s ↔ s.workqueue.length ≤ limit ∧
    ∀ t, (∀ request, s.pc t = .appendRefuse request → s.workqueue.length = limit) ∧
      ∀ request, s.pc t = .appendPush request → s.workqueue.length < limit :=
  ⟨fun h => ⟨h.bound, fun t => ⟨h.refused t, h.admitted t⟩⟩,
    fun h => ⟨h.1, fun t => (h.2 t).1, fun t => (h.2 t).2⟩⟩

/-- The comparison. -/
theorem advance_test (hpc : s.pc t = .appendTest request) (h : s.advance release t = some s') :
    s' = s.goto t (if s.maxRequests < s.workqueue.length then .appendRefuse request
      else .appendPush request) := by
  simp only [Pool.advance, hpc] at h
  split at h
  · rw [if_pos ‹_›]
    exact (Option.some.inj h).symm
  · rw [if_neg ‹_›]
    exact (Option.some.inj h).symm

/-- Only the comparison decides. -/
theorem advance_decided (hpc : ∀ request, s.pc t ≠ .appendTest request)
    (h : s.advance release t = some s') : decided (s'.pc t) = false := by
  unfold Pool.advance at h
  cases hv : s.pc t <;> simp only [hv] at h
  case idle => cases h
  case stopped => cases h
  case appendTest request => exact absurd hv (hpc request)
  case appendLock | appendUnlock | runLock | runSkip | runUnlock =>
    rw [mutexCall_pc h]
    rfl
  case appendRefuse request =>
    obtain ⟨s₁, hcall, rfl⟩ := Option.map_eq_some_iff.mp h
    have hidle := mutexCall_pc hcall
    rw [Pool.ret, hidle]
    rfl
  case appendPush request =>
    obtain rfl := Option.some.inj h
    exact congrArg decided (goto_self s t (.appendUnlock request))
  case appendPost request =>
    obtain rfl := Option.some.inj h
    exact congrArg decided (goto_self s t .idle)
  case runTest | runEmpty =>
    split at h <;> obtain rfl := Option.some.inj h <;> rw [goto_self] <;> rfl
  case runWait =>
    split at h
    · cases h
    · obtain rfl := Option.some.inj h
      exact congrArg decided (goto_self s t .runLock)
  case runFront =>
    split at h
    · cases h
    · obtain rfl := Option.some.inj h
      exact congrArg decided (goto_self s t (.runUnlock _))
  case runProcess request =>
    split at h
    · obtain rfl := Option.some.inj h
      rw [goto_self]
      rfl
    · obtain rfl := Option.some.inj h
      exact congrArg decided (goto_self s t .runTest)

/-- A step changes the queue only inside the critical section. -/
theorem Change.queue (h : Change release s t s') :
    (s'.workqueue = s.workqueue ∨ inside (s.pc t)) ∧ s'.maxRequests = s.maxRequests ∧
      (s'.workqueue.length ≤ s.workqueue.length ∨
        ∃ request, s.pc t = .appendPush request ∧ s'.workqueue.length = s.workqueue.length + 1) := by
  cases h with
  | quiet v hface => exact ⟨Or.inl rfl, rfl, Or.inl (le_refl _)⟩
  | locked v hfree hv hface => exact ⟨Or.inl rfl, rfl, Or.inl (le_refl _)⟩
  | unlocked v s' hcall hin hv hface =>
    obtain ⟨owner, rfl⟩ := mutexCall_eq hcall
    exact ⟨Or.inl rfl, rfl, Or.inl (le_refl _)⟩
  | refused request s' hpc hcall =>
    obtain ⟨owner, rfl⟩ := mutexCall_eq hcall
    exact ⟨Or.inl rfl, rfl, Or.inl (le_refl _)⟩
  | skipped s' hpc hcall =>
    obtain ⟨owner, rfl⟩ := mutexCall_eq hcall
    exact ⟨Or.inl rfl, rfl, Or.inl (le_refl _)⟩
  | pushed request hpc =>
    refine ⟨Or.inr (by rw [hpc]; rfl), rfl, Or.inr ⟨request, hpc, ?_⟩⟩
    exact List.length_append
  | posted request hpc => exact ⟨Or.inl rfl, rfl, Or.inl (le_refl _)⟩
  | waited hpc hpos => exact ⟨Or.inl rfl, rfl, Or.inl (le_refl _)⟩
  | popped request rest hpc hqueue =>
    refine ⟨Or.inr (by rw [hpc]; rfl), rfl, Or.inl ?_⟩
    rw [hqueue]
    exact Nat.le_succ _
  | processed r hpc => exact ⟨Or.inl rfl, rfl, Or.inl (le_refl _)⟩

/-- The other threads that have compared find the queue as it was. -/
theorem Limited.others (h : Limited limit s) (hguarded : Guarded s) (hchange : Change release s t s')
    (hu : u ≠ t) :
    (∀ request, s'.pc u = .appendRefuse request → s'.workqueue.length = limit) ∧
      ∀ request, s'.pc u = .appendPush request → s'.workqueue.length < limit := by
  obtain ⟨v, hpc, -⟩ := hchange.moves
  have hsame : s'.pc u = s.pc u := by rw [hpc, Function.update_of_ne hu]
  have hqueue : decided (s.pc u) = true → s'.workqueue = s.workqueue := by
    intro hdecided
    refine (Change.queue hchange).1.resolve_right fun hin => hu ?_
    have hut := (hguarded u).mpr (inside_of_decided hdecided)
    rw [(hguarded t).mpr hin] at hut
    exact (Option.some.inj hut).symm
  rw [hsame]
  refine ⟨fun request hrefuse => ?_, fun request hpush => ?_⟩
  · rw [hqueue (by rw [hrefuse]; rfl)]
    exact h.refused u request hrefuse
  · rw [hqueue (by rw [hpush]; rfl)]
    exact h.admitted u request hpush

/-- A step keeps the limit, if a comparison finds the queue too long exactly when it is full. -/
theorem Limited.step (h : Limited limit s) (hguarded : Guarded s) (hstep : Step release s a s')
    (htest : ∀ t request, a = .advance t → s.pc t = .appendTest request →
      (s.maxRequests < s.workqueue.length ↔ s.workqueue.length = limit)) : Limited limit s' := by
  rw [limited_iff]
  cases a with
  | append t request =>
    obtain ⟨hidle, rfl⟩ := append_eq hstep
    have hchange : Change release s t (s.goto t (.appendLock request)) :=
      .quiet _ (by rw [hidle]; rfl) (by simp)
    refine ⟨h.bound, fun u => ?_⟩
    by_cases hu : u = t
    · rw [hu, goto_self]
      exact ⟨nofun, nofun⟩
    · exact h.others hguarded hchange hu
  | advance t =>
    have hchange := advance_change hstep
    refine ⟨?_, fun u => ?_⟩
    · rcases (Change.queue hchange).2.2 with hle | ⟨request, hpush, hlen⟩
      · exact hle.trans h.bound
      · have hlt := h.admitted t request hpush
        omega
    · by_cases hu : u = t
      · subst hu
        by_cases hpc : ∃ request, s.pc u = .appendTest request
        · obtain ⟨request, hpc⟩ := hpc
          have hiff := htest u request rfl hpc
          have hbound := h.bound
          rw [advance_test hpc hstep, goto_self]
          by_cases hlong : s.maxRequests < s.workqueue.length
          · rw [if_pos hlong]
            exact ⟨fun _ _ => hiff.mp hlong, nofun⟩
          · rw [if_neg hlong]
            refine ⟨nofun, fun _ _ => ?_⟩
            exact lt_of_le_of_ne hbound fun heq => hlong (hiff.mpr heq)
        · have hnone := advance_decided (fun request hv => hpc ⟨request, hv⟩) hstep
          refine ⟨fun request hv => ?_, fun request hv => ?_⟩
          · rw [hv] at hnone
            cases hnone
          · rw [hv] at hnone
            cases hnone
      · exact h.others hguarded hchange hu

omit [DecidableEq T] in
/-- An empty queue is within its limit. -/
theorem limited_create (limit : Nat) : Limited limit (create R worker maxRequests) := by
  refine ⟨Nat.zero_le _, fun t request hpc => ?_, fun t request hpc => ?_⟩
  · rw [create_pc] at hpc
    split at hpc <;> cases hpc
  · rw [create_pc] at hpc
    split at hpc <;> cases hpc

/-- What a run keeps. -/
structure Kept (maxRequests limit : Nat) (s : Pool T R) : Prop where
  guarded : Guarded s
  same : s.maxRequests = maxRequests
  limited : Limited limit s

/-- Every step keeps the limit, where the test decides as it should. -/
theorem Kept.step (h : Kept maxRequests limit s) (hstep : Step release s a s')
    (htest : ∀ t request, a = .advance t → s.pc t = .appendTest request →
      (s.maxRequests < s.workqueue.length ↔ s.workqueue.length = limit)) :
    Kept maxRequests limit s' := by
  obtain ⟨t, hchange⟩ := step_change hstep
  exact ⟨h.guarded.step hstep, (Change.queue hchange).2.1.trans h.same,
    h.limited.step h.guarded hstep htest⟩

/-- In every run the limit is one more than `m_max_requests`. -/
theorem limited_succ (hrun : Run (Step release) (fun _ _ => True) (create R worker maxRequests) s) :
    Limited (maxRequests + 1) s := by
  have h : Kept maxRequests (maxRequests + 1) s := by
    apply hrun.invariant ⟨Guarded.create worker maxRequests, rfl, limited_create _⟩
    intro s a s' h hstep _
    apply h.step hstep
    intro t request _ _
    have hbound := h.limited.bound
    rw [h.same]
    omega
  exact h.limited

/-- A call of `append` compares when the queue has just `m_max_requests` requests. -/
def testsFull (s : Pool T R) : ServerListings.Model.ThreadPool.Action T R → Bool
  | .append _ _ => false
  | .advance t =>
    match s.pc t with
    | .appendTest _ => s.workqueue.length = s.maxRequests
    | _ => false

omit [DecidableEq T] in
/-- The test looks at a full queue. -/
theorem testsFull_of_test (hpc : s.pc t = .appendTest request) :
    testsFull s (.advance t) = decide (s.workqueue.length = s.maxRequests) := by
  simp only [testsFull, hpc]

omit [DecidableEq T] in
/-- Only the test of `append` looks at a full queue. -/
theorem exists_test (h : testsFull s a = true) :
    ∃ t request, a = .advance t ∧ s.pc t = .appendTest request := by
  cases a with
  | append t request => cases h
  | advance t =>
    unfold testsFull at h
    cases hpc : s.pc t <;> simp only [hpc] at h <;> first | exact ⟨t, _, rfl, hpc⟩ | cases h

/-- In every state of a run in which no call of `append` compares with a queue of just
`m_max_requests` requests, the queue has at most so many, and `append` refuses exactly if it is
full; the first comparison of this kind ends that. A refusal changes neither the queue nor the
semaphore. -/
theorem requests_limited (hrun : Run (Step unlockDocumented) (fun s a => testsFull s a = false)
    (create R worker maxRequests) s) :
    Limited maxRequests s ∧
      (∀ a s', Step unlockDocumented s a s' → (Limited maxRequests s' ↔ testsFull s a = false)) ∧
      ∀ (s s' : Pool T R) (t : T) (request : Option R), s.pc t = .appendRefuse request →
        Step unlockDocumented s (.advance t) s' → s'.workqueue = s.workqueue ∧
          s'.queuestat = s.queuestat ∧ s'.returned = s.returned ++ [(t, request, false)] := by
  have htest : ∀ {s : Pool T R} {a : ServerListings.Model.ThreadPool.Action T R},
      Kept maxRequests maxRequests s → testsFull s a = false →
      ∀ t request, a = .advance t → s.pc t = .appendTest request →
        (s.maxRequests < s.workqueue.length ↔ s.workqueue.length = maxRequests) := by
    rintro s a h hbelow t request rfl hpc
    rw [testsFull_of_test hpc, decide_eq_false_iff_not] at hbelow
    have hbound := h.limited.bound
    have hsame := h.same
    omega
  have h : Kept maxRequests maxRequests s := by
    apply hrun.invariant ⟨Guarded.create worker maxRequests, rfl, limited_create _⟩
    intro s a s' h hstep hbelow
    exact h.step hstep (htest h hbelow)
  refine ⟨h.limited, fun a s' hstep => ⟨fun hlimited => ?_, fun hbelow => ?_⟩, ?_⟩
  · by_contra hfull
    obtain ⟨t, request, rfl, hpc⟩ := exists_test (eq_true_of_ne_false hfull)
    rw [testsFull_of_test hpc, decide_eq_false_iff_not, not_not] at hfull
    -- the thread goes on to push
    have hnext := advance_test hpc hstep
    rw [if_neg (by omega)] at hnext
    have hlt := hlimited.admitted t request (by rw [hnext, goto_self])
    rw [hnext] at hlt
    have hsame : (s.goto t (.appendPush request)).workqueue.length = maxRequests := hfull.trans h.same
    omega
  · exact (h.step hstep (htest h hbelow)).limited
  · intro s s' t request hpc hstep
    have hadvance : s.advance unlockDocumented t = some s' := hstep
    simp only [Pool.advance, hpc] at hadvance
    obtain ⟨s₁, hcall, rfl⟩ := Option.map_eq_some_iff.mp hadvance
    obtain ⟨owner, rfl⟩ := mutexCall_eq hcall
    exact ⟨rfl, rfl, rfl⟩

end Limits

/-- A call of `append`, from its beginning to its return. -/
def appendCall (request : Option Nat) : List (ServerListings.Model.ThreadPool.Action Unit Nat) :=
  .append () request :: List.replicate 5 (.advance ())

/-- A pool for two requests takes one. -/
def halfFull : Option (Pool Unit Nat) :=
  schedule (perform unlockDocumented) (fun s a => testsFull s a = false) (create Nat (fun _ => false) 2)
    (appendCall (some 7))

/-- A queue that is not full is within its limit. -/
theorem requests_limited_half : Limited 2 (halfFull.get (by decide)) :=
  (requests_limited (Run.refl.of_schedule (fun _ _ _ h => h) (Option.some_get _).symm)).1

/-- A pool for one request takes two. -/
def overFull : Option (Pool Unit Nat) :=
  schedule (perform unlockDocumented) (fun _ _ => True) (create Nat (fun _ => false) 1)
    (appendCall (some 7) ++ appendCall (some 8))

/-- A queue of one request takes a second one. -/
theorem queue_over_limit : ¬ ∀ s : Pool Unit Nat,
    Run (Step unlockDocumented) (fun _ _ => True) (create Nat (fun _ => false) 1) s →
      s.workqueue.length ≤ 1 := by
  intro hall
  have hbound := hall (overFull.get (by decide))
    (Run.refl.of_schedule (fun _ _ _ h => h) (Option.some_get _).symm)
  exact absurd hbound (by decide)

end ServerListings.Analysis.PoolLimit
