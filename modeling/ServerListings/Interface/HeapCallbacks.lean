import ServerListings.Interface.HeapInts
import ServerListings.Interface.HeapOperations
import ServerListings.Model.TimeHeapCallbacks

/-!
# Callbacks on the time heap

While a callback runs, the timer that it belongs to is the first one of the array. The rule
for what a callback does (`runCalls_spec`) says that it stays there when the callback only
adds timers that are not due: `add_timer` moves the hole no further up than below the first
place (`addLoop_first`).
-/

set_option autoImplicit false

namespace ServerListings.Interface

open Lib.CMem Lib.HoleHeap ServerListings.Model

/-! ## What a callback may do -/

/-- A callback makes no timer at the address of one in the heap, which is alive, and adds no
timer that is due. -/
def Allowed (cur : Int) (h : TimeHeap) (s : Store) : HeapCall → Prop
  | .make p _ => some p ∉ h.array.take h.curSize
  | .add _ timer => ∀ p, timer = some p → cur < expireOf s p
  | .del _ => True

/-- An added timer is at most the `2 ^ 30`th one of the heap. -/
def Few (h : TimeHeap) (_ : Store) : HeapCall → Prop
  | .add _ (some _) => h.curSize < 2 ^ 30
  | _ => True

/-- Each operation of a callback meets a condition on the state in which it is called. -/
def Along (P : TimeHeap → Store → HeapCall → Prop) : List HeapCall → TimeHeap → Store → Prop
  | [], _, _ => True
  | c :: cs, h, s => P h s c ∧ ∀ h' s', c.run h s = .ok (h', s') → Along P cs h' s'

/-- All operations of a callback are allowed. -/
def AllowedCalls (cur : Int) : List HeapCall → TimeHeap → Store → Prop := Along (Allowed cur)

/-- No operation of a callback adds more timers than the `int` arithmetic can number. -/
def FewCalls : List HeapCall → TimeHeap → Store → Prop := Along Few

/-- The timer that a call adds. -/
def addedBy : HeapCall → List Ptr
  | .add _ timer => timer.toList
  | _ => []

/-- The timers that a callback adds. -/
def added (cs : List HeapCall) : List Ptr := cs.flatMap addedBy

/-- The call is `del_timer` of the timer `p`. -/
def deletes (p : Ptr) : HeapCall → Bool
  | .del (some q) => q == p
  | _ => false

/-- A timer after the calls `cs`: one of them may have been `del_timer` of it. -/
def afterCalls (cs : List HeapCall) (p : Ptr) (timer : HeapTimer) : HeapTimer :=
  if cs.any (deletes p) then { timer with cbFunc := none } else timer

/-- Without calls a timer is as it was. -/
@[simp] theorem afterCalls_nil (p : Ptr) (t : HeapTimer) : afterCalls [] p t = t := rfl

/-- The calls of a callback leave the times alone. -/
@[simp] theorem afterCalls_expire (cs : List HeapCall) (p : Ptr) (t : HeapTimer) :
    (afterCalls cs p t).expire = t.expire := by
  unfold afterCalls
  split <;> rfl

/-- The calls of two callbacks, one after the other. -/
theorem afterCalls_append (cs ds : List HeapCall) (p : Ptr) (t : HeapTimer) :
    afterCalls (cs ++ ds) p t = afterCalls ds p (afterCalls cs p t) := by
  unfold afterCalls
  rw [List.any_append]
  cases cs.any (deletes p) with
  | true =>
    rw [Bool.true_or, if_pos rfl]
    split <;> rfl
  | false => rw [Bool.false_or, if_neg Bool.false_ne_true]

/-- A call that is not `del_timer` of the timer leaves it as it is. -/
theorem afterCalls_singleton_of_not {c : HeapCall} {p : Ptr} (hnot : deletes p c = false)
    (t : HeapTimer) : afterCalls [c] p t = t := by
  rw [afterCalls, List.any_cons, hnot, List.any_nil, Bool.or_false, if_neg Bool.false_ne_true]

/-- A cancelled timer is one after that call. -/
theorem delTimer_timers (s : Store) (timer : Option Ptr) (p : Ptr) :
    (delTimer s timer).timers p = afterCalls [.del timer] p (s.timers p) := by
  cases timer with
  | none => exact (afterCalls_singleton_of_not rfl _).symm
  | some q =>
    by_cases hq : p = q
    · rw [hq, afterCalls, List.any_cons, deletes, beq_self_eq_true, Bool.true_or, if_pos rfl]
      exact if_pos rfl
    · have hnot : deletes p (.del (some q)) = false := beq_eq_false_iff_ne.mpr (Ne.symm hq)
      rw [afterCalls_singleton_of_not hnot]
      exact if_neg hq

/-- A cancellation makes no callback. -/
@[simp] theorem delTimer_calls (s : Store) (timer : Option Ptr) :
    (delTimer s timer).calls = s.calls := by
  cases timer <;> rfl

section Calls

variable {s s' : Store} {h h' : TimeHeap} {l : List Ptr} {x z p : Ptr} {cur : Int}

/-! ## The first place -/

/-- The hole stays behind a first timer that is no later than the new one. -/
theorem addLoop_first (hle : expireOf s z ≤ expireOf s x) (fuel : Nat) :
    ∀ (array : List (Option Ptr)) (hole : Nat) (array' : List (Option Ptr)) (hole' : Nat),
      load array 0 = .ok (some z) → 0 < hole →
      addLoop s (some x) fuel array hole = .ok (array', hole') →
      load array' 0 = .ok (some z) ∧ 0 < hole' := by
  induction fuel with
  | zero =>
    intro array hole array' hole' _ _ hloop
    cases hloop
  | succ fuel ih =>
    intro array hole array' hole' hfirst hpos hloop
    unfold addLoop at hloop
    rw [if_pos hpos] at hloop
    obtain ⟨p, hp, hloop⟩ := bind_eq_ok.mp hloop
    obtain ⟨pt, hpt, hloop⟩ := bind_eq_ok.mp hloop
    rw [deref_some, ok_bind] at hloop
    by_cases hstop : pt.expire ≤ (s.timers x).expire
    · rw [if_pos hstop] at hloop
      obtain ⟨rfl, rfl⟩ := Prod.mk.inj (Except.ok.inj hloop)
      exact ⟨hfirst, hpos⟩
    · rw [if_neg hstop] at hloop
      obtain ⟨array₁, hstore, hloop⟩ := bind_eq_ok.mp hloop
      -- the parent is not the first place, where the loop would have stopped
      have hparent : 0 < (hole - 1) / 2 := by
        apply Nat.pos_of_ne_zero
        intro hzero
        rw [hzero, hfirst] at hp
        obtain rfl := Except.ok.inj hp
        rw [deref_some] at hpt
        obtain rfl := Except.ok.inj hpt
        exact hstop hle
      have hkept : load array₁ 0 = .ok (some z) := by
        unfold store at hstore
        split at hstore
        · obtain rfl := Except.ok.inj hstore
          rw [load, List.getElem?_set_ne (by omega)]
          exact hfirst
        · cases hstore
      exact ih _ _ _ _ hkept hparent hloop

/-- A new timer that is no earlier than the first one leaves it in its place. -/
theorem addTimer_behind (hh : Heap s h (z :: l)) (hle : expireOf s z ≤ expireOf s p) :
    ∃ h' l' d, h.addTimer s (some p) = .ok (h', { s with deleted := s.deleted ++ d }) ∧
      Heap s h' (z :: l') ∧ l'.Perm (p :: l) := by
  have hcap : 1 ≤ h.capacity := le_trans (Nat.succ_le_succ (Nat.zero_le _)) hh.length_le
  obtain ⟨h', l', hadd, hheap, hcap', hperm⟩ := addTimer_spec hh hcap p
  have hfirst : load h'.array 0 = .ok (some z) := by
    have hstep := hadd
    obtain ⟨h₁, hroom, hh₁, -⟩ := makeRoom_spec hh.toHolds hcap s
    obtain ⟨rest, harray⟩ := hh₁.used
    have hload : load h₁.array 0 = .ok (some z) := by
      rw [harray]
      rfl
    rw [TimeHeap.addTimer, hroom, ok_bind] at hstep
    obtain ⟨⟨array', hole'⟩, hloop, hstep⟩ := bind_eq_ok.mp hstep
    obtain ⟨array'', hstore, hstep⟩ := bind_eq_ok.mp hstep
    obtain ⟨rfl, -⟩ := Prod.mk.inj (Except.ok.inj hstep)
    have hpos : 0 < h₁.curSize := by
      rw [hh₁.size]
      exact Nat.succ_pos _
    obtain ⟨hkept, hhole⟩ := addLoop_first (z := z)
      (s := { s with deleted := s.deleted ++ copied h (z :: l) }) hle _ _ _ _ _ hload hpos hloop
    unfold store at hstore
    split at hstore
    · obtain rfl := Except.ok.inj hstore
      show load (array'.set hole' (some p)) 0 = _
      rw [load, List.getElem?_set_ne (by omega)]
      exact hkept
    · cases hstore
  cases l' with
  | nil =>
    have hlen := hperm.length_eq
    simp at hlen
  | cons y l' =>
    obtain ⟨q, hq, hhead⟩ := hheap.load_first hcap'
    rw [hfirst] at hq
    obtain rfl := Except.ok.inj hq
    obtain rfl := Option.some.inj (hhead y rfl)
    exact ⟨h', l', _, hadd, hheap, ((hperm.trans (List.Perm.swap _ _ _)).cons_inv)⟩

/-- The arithmetic of an operation fits where the heap has fewer than `2 ^ 30` timers. -/
theorem Holds.intsFit (hh : Holds h l) (hfew : h.curSize < 2 ^ 30) : IntsFit h := by
  refine ⟨hfew.le, ?_⟩
  have hle := hh.length_le
  have hsize := hh.size
  unfold intMax
  omega

/-! ## One callback -/

/-- What a callback leaves of the heap whose first timer it belongs to: that timer is still the
first, the others are those from before and the added ones, and timers that were in the heap
have changed only where `del_timer` was called on them. -/
structure CallEffect (cur : Int) (cs : List HeapCall) (x : Ptr) (l : List Ptr) (s : Store)
    (h' : TimeHeap) (s' : Store) (l' : List Ptr) : Prop where
  heap : Heap s' h' (x :: l')
  perm : l'.Perm (added cs ++ l)
  timers : ∀ p ∈ x :: l, s'.timers p = afterCalls cs p (s.timers p)
  later : ∀ p ∈ added cs, cur < expireOf s' p
  calls : s'.calls = s.calls
  size : h'.curSize ≤ 2 ^ 30

/-- The time of a timer after the calls of a callback. -/
theorem expireOf_afterCalls {cs : List HeapCall} (h : s'.timers p = afterCalls cs p (s.timers p)) :
    expireOf s' p = expireOf s p := by
  rw [expireOf, expireOf, h, afterCalls_expire]

/-- One operation of a callback. -/
theorem heapCall_spec (hh : Heap s h (x :: l)) (hdue : expireOf s x ≤ cur)
    (hsize : h.curSize ≤ 2 ^ 30) (c : HeapCall) (hc : Allowed cur h s c) (hfew : Few h s c) :
    ∃ h' s' l', c.run h s = .ok (h', s') ∧ CallEffect cur [c] x l s h' s' l' := by
  cases c with
  | make q t =>
    have hne : ∀ p ∈ x :: l, p ≠ q := by
      rintro p hp rfl
      have hnew : some p ∉ h.array.take h.curSize := hc
      rw [hh.take] at hnew
      exact hnew (List.mem_map_of_mem hp)
    refine ⟨h, s.make q t, l, rfl, ⟨hh.toHolds, ?_⟩, .refl _, ?_, ?_, rfl, hsize⟩
    · exact hh.order.of_expire fun p hp => expireOf_make_ne s t (hne p hp)
    · intro p hp
      rw [afterCalls_singleton_of_not rfl]
      exact if_neg (hne p hp)
    · intro p hp
      cases hp
  | add memory timer =>
    have hkeep : ∀ p ∈ x :: l, s.timers p = afterCalls [.add memory timer] p (s.timers p) :=
      fun p _ => (afterCalls_singleton_of_not rfl _).symm
    cases timer with
    | none =>
      refine ⟨h, s, l, rfl, hh, .refl _, hkeep, ?_, rfl, hsize⟩
      intro p hp
      cases hp
    | some p =>
      have hlater : cur < expireOf s p := hc p rfl
      have hlt : h.curSize < 2 ^ 30 := hfew
      obtain ⟨h', l', d, hadd, hheap, hperm⟩ := addTimer_behind hh (le_trans hdue hlater.le)
      have hint := (addTimerInt_same memory s (some p)).eq_of (hh.toHolds.intsFit hlt)
      refine ⟨h', _, l', hint.trans hadd, ⟨hheap.toHolds, hheap.order⟩, hperm, hkeep, ?_, rfl, ?_⟩
      · intro q hq
        obtain rfl := List.mem_singleton.mp hq
        exact hlater
      · have hlen := hperm.length_eq
        have hcount := hh.size
        have hcount' := hheap.size
        rw [List.length_cons] at hlen hcount hcount'
        omega
  | del timer =>
    refine ⟨h, delTimer s timer, l, rfl, ⟨hh.toHolds, ?_⟩, .refl _, ?_, ?_, delTimer_calls _ _, hsize⟩
    · exact hh.order.of_expire fun p _ => expireOf_delTimer s timer p
    · intro p _
      exact delTimer_timers s timer p
    · intro p hp
      cases hp

/-- All that a callback does; the induction is on its operations. -/
theorem runCalls_spec (cs : List HeapCall) : ∀ (h : TimeHeap) (s : Store) (l : List Ptr),
    Heap s h (x :: l) → expireOf s x ≤ cur → h.curSize ≤ 2 ^ 30 → AllowedCalls cur cs h s →
    FewCalls cs h s →
    ∃ h' s' l', runCalls cs h s = .ok (h', s') ∧ CallEffect cur cs x l s h' s' l' := by
  induction cs with
  | nil =>
    intro h s l hh _ hsize _ _
    refine ⟨h, s, l, rfl, hh, .refl _, fun p _ => rfl, ?_, rfl, hsize⟩
    intro p hp
    cases hp
  | cons c cs ih =>
    intro h s l hh hdue hsize hall hfew
    obtain ⟨h₁, s₁, l₁, hrun, hc⟩ := heapCall_spec hh hdue hsize c hall.1 hfew.1
    have hx := expireOf_afterCalls (hc.timers x List.mem_cons_self)
    obtain ⟨h', s', l', hruns, hcs⟩ := ih h₁ s₁ l₁ hc.heap (by rw [hx]; exact hdue) hc.size
      (hall.2 h₁ s₁ hrun) (hfew.2 h₁ s₁ hrun)
    have hsub : ∀ p ∈ addedBy c ++ l, p ∈ l₁ := by
      intro p hp
      apply hc.perm.mem_iff.mpr
      rwa [added, List.flatMap_cons, List.flatMap_nil, List.append_nil]
    refine ⟨h', s', l', ?_, hcs.heap, ?_, ?_, ?_, hcs.calls.trans hc.calls, hcs.size⟩
    · rw [runCalls, hrun, ok_bind]
      exact hruns
    · calc l'.Perm (added cs ++ l₁) := hcs.perm
        _ |>.Perm (added cs ++ (addedBy c ++ l)) := by
            have h₁ := hc.perm
            rw [added, List.flatMap_cons, List.flatMap_nil, List.append_nil] at h₁
            exact h₁.append_left _
        _ |>.Perm (added (c :: cs) ++ l) := by
            rw [added, added, List.flatMap_cons, ← List.append_assoc]
            exact List.perm_append_comm.append_right _
    · intro p hp
      have hp₁ : p ∈ x :: l₁ := by
        rcases List.mem_cons.mp hp with rfl | hp
        · exact List.mem_cons_self
        · exact List.mem_cons_of_mem _ (hsub p (List.mem_append_right _ hp))
      rw [hcs.timers p hp₁, hc.timers p hp]
      exact (afterCalls_append [c] cs p _).symm
    · intro p hp
      rw [added, List.flatMap_cons] at hp
      rcases List.mem_append.mp hp with hp | hp
      · have hnew := expireOf_afterCalls
          (hcs.timers p (List.mem_cons_of_mem _ (hsub p (List.mem_append_left _ hp))))
        rw [hnew]
        apply hc.later
        rwa [added, List.flatMap_cons, List.flatMap_nil, List.append_nil]
      · exact hcs.later p hp

/-! ## Callbacks that leave the heap alone -/

/-- A callback that leaves the heap alone makes no calls. -/
theorem madeCalls_nil (h : TimeHeap) (s : Store) (t : HeapTimer) :
    madeCalls (fun _ _ => []) h s t = [] := by
  unfold madeCalls
  split <;> rfl

/-- `pop_timer` adds no timers. -/
theorem popTimer_curSize : Ensures (h.popTimer s) (fun r => r.1.curSize ≤ h.curSize) := by
  unfold TimeHeap.popTimer
  split
  · exact ensures_pure le_rfl
  · refine ensures_bind fun first => ?_
    split
    · refine ensures_bind fun last => ensures_bind fun array => ?_
      refine percolateDown_curSize.bind fun h' hsize => ensures_pure ?_
      rw [hsize]
      exact Nat.sub_le _ _
    · exact ensures_pure le_rfl

/-- The loop with callbacks that do nothing is the plain one. -/
theorem tickLoopCalling_same (n : Nat) : ∀ (tmp : Option Ptr) (h : TimeHeap) (s : Store),
    SameUnless (h.curSize ≤ 2 ^ 30) (tickLoopCalling (fun _ _ => []) cur n tmp h s)
      (tickLoop cur n tmp h s) := by
  induction n with
  | zero =>
    intro tmp h s
    exact sameUnless_refl _ _
  | succ n ih =>
    intro tmp h s
    unfold tickLoopCalling tickLoop
    split
    · exact sameUnless_refl _ _
    split
    · exact sameUnless_refl _ _
    refine (sameUnless_refl _ _).bind fun tmpTimer _ => ?_
    split
    · exact sameUnless_refl _ _
    refine (sameUnless_refl _ _).bind fun p _ => (sameUnless_refl _ _).bind fun first _ => ?_
    rw [TimeHeap.callBack, madeCalls_nil, runCalls]
    refine (popTimerInt_same _).bind fun r hpop => (sameUnless_refl _ _).bind fun tmp _ => ?_
    exact (ih tmp r.1 r.2).mono (popTimer_curSize.result hpop).trans

/-- `tick` with callbacks that do nothing is the plain heartbeat. -/
theorem tickCalling_same (h : TimeHeap) (s : Store) (cur : Int) :
    SameUnless (h.curSize ≤ 2 ^ 30) (h.tickCalling (fun _ _ => []) s cur) (h.tick s cur) :=
  (sameUnless_refl _ _).bind fun tmp _ => tickLoopCalling_same _ tmp h s

end Calls

end ServerListings.Interface
