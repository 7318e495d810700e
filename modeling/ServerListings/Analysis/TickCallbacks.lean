import ServerListings.Interface.HeapCallbacks

/-!
# The heartbeat of the time heap fires what is due

A `Pass` is one iteration of the loop of `tick`: the timer it handles and the states before
the callback, after it and after `pop_timer`. `Fires` says of a call of `tick` that its passes
handle the timers that are due, each once and in the order of their times, whatever the
callbacks add to the heap or delete from it. Where the heap never has more than `2 ^ 30` timers,
it does so if and only if its array has a place (`tick_fires_iff`): `tick` reads the first place
before it asks whether the heap is empty.
-/

set_option autoImplicit false

namespace ServerListings.Analysis.TickCallbacks

open Lib.CMem ServerListings.Model ServerListings.Interface

/-- One iteration of the loop. -/
structure Pass where
  timer : Ptr
  start : TimeHeap × Store
  called : TimeHeap × Store
  popped : TimeHeap × Store

/-- The members of the timer when it is at the top. -/
def Pass.members (π : Pass) : HeapTimer := π.start.2.timers π.timer

/-- What the callback of the timer did. -/
def Pass.made (callbacks : Callbacks) (π : Pass) : List HeapCall :=
  madeCalls callbacks π.start.1 π.start.2 π.members

/-- The iteration handles the first timer of the array. That timer is due, it is still the
first one after the callback, and `pop_timer` removes and deletes it and no other timer. -/
structure Pass.Handles (callbacks : Callbacks) (cur : Int) (π : Pass) : Prop where
  top : load π.start.1.array 0 = .ok (some π.timer)
  due : expireOf π.start.2 π.timer ≤ cur
  callback : π.start.1.callBack callbacks π.start.2 π.members = .ok π.called
  kept : load π.called.1.array 0 = .ok (some π.timer)
  pop : π.called.1.popTimerInt π.called.2 = .ok π.popped
  removed : ∃ l l', Heap π.called.2 π.called.1 (π.timer :: l) ∧ Heap π.popped.2 π.popped.1 l' ∧
    l'.Perm l
  deleted : π.popped.2.deleted = π.called.2.deleted ++ [π.timer]

/-- Each pass starts where the one before it ended. -/
def Linked : TimeHeap × Store → List Pass → TimeHeap × Store → Prop
  | a, [], b => a = b
  | a, π :: passes, b => π.start = a ∧ Linked π.popped passes b

/-- What a heartbeat on a heap of the timers `l` has to do. A timer is called back with the
members that it has at the top: those from before the heartbeat, without the callback if an
earlier callback has called `del_timer` on it. -/
structure Fired (callbacks : Callbacks) (cur : Int) (a : TimeHeap × Store) (l : List Ptr)
    (passes : List Pass) (b : TimeHeap × Store) : Prop where
  linked : Linked a passes b
  handles : ∀ π ∈ passes, π.Handles callbacks cur
  handled : (passes.map Pass.timer).Perm (l.filter (expireOf a.2 · ≤ cur))
  inOrder : (passes.map Pass.timer).Pairwise (expireOf a.2 · ≤ expireOf a.2 ·)
  members : ∀ before π after, passes = before ++ π :: after →
    π.members = afterCalls (before.flatMap (Pass.made callbacks)) π.timer (a.2.timers π.timer)
  calls : b.2.calls = a.2.calls ++ passes.filterMap (fun π => callOf π.members)
  rest : ∃ l', Heap b.2 b.1 l' ∧
    l'.Perm (l.filter (cur < expireOf a.2 ·) ++ passes.flatMap fun π => added (π.made callbacks))

/-- `tick` returns, and it has fired what was due. -/
def Fires (callbacks : Callbacks) (cur : Int) (h : TimeHeap) (s : Store) (l : List Ptr) : Prop :=
  ∃ passes b, h.tickCalling callbacks s cur = .ok b ∧ Fired callbacks cur (h, s) l passes b

/-! ## What the callbacks may do -/

/-- The states in which a heartbeat is at the condition of its loop. -/
inductive Met (callbacks : Callbacks) (a : TimeHeap × Store) : TimeHeap × Store → Prop
  | start : Met callbacks a a
  | pass {b c d : TimeHeap × Store} {x : Ptr} : Met callbacks a b → load b.1.array 0 = .ok (some x) →
      b.1.callBack callbacks b.2 (b.2.timers x) = .ok c → c.1.popTimerInt c.2 = .ok d →
      Met callbacks a d

/-- What the callback of the first timer would do in the state `b` meets a condition. -/
def CallbackMeets (cond : List HeapCall → TimeHeap → Store → Prop) (callbacks : Callbacks)
    (b : TimeHeap × Store) : Prop :=
  ∀ x, load b.1.array 0 = .ok (some x) →
    cond (madeCalls callbacks b.1 b.2 (b.2.timers x)) b.1 (b.2.callBack (b.2.timers x))

/-- The callbacks of a heartbeat make and add only what they may. -/
def AllCallbacksAllowed (callbacks : Callbacks) (cur : Int) (h : TimeHeap) (s : Store) : Prop :=
  ∀ b, Met callbacks (h, s) b → CallbackMeets (AllowedCalls cur) callbacks b

/-- The heap has at most `2 ^ 30` timers, also after the additions of the callbacks. -/
structure FewTimers (callbacks : Callbacks) (h : TimeHeap) (s : Store) : Prop where
  size : h.curSize ≤ 2 ^ 30
  callbacks : ∀ b, Met callbacks (h, s) b → CallbackMeets FewCalls callbacks b

/-- What is met after a first pass is met in the whole heartbeat. -/
theorem Met.after {callbacks : Callbacks} {a b c d : TimeHeap × Store} {x : Ptr}
    (hload : load a.1.array 0 = .ok (some x))
    (hcall : a.1.callBack callbacks a.2 (a.2.timers x) = .ok b) (hpop : b.1.popTimerInt b.2 = .ok c)
    (hmet : Met callbacks c d) : Met callbacks a d := by
  induction hmet with
  | start => exact .pass .start hload hcall hpop
  | pass _ hload hcall hpop ih => exact .pass ih hload hcall hpop

section Steps

variable {callbacks : Callbacks} {cur : Int} {h : TimeHeap} {s : Store} {l : List Ptr} {x : Ptr}

/-- A heap whose timers are all later has nothing to fire. -/
theorem fired_nil (hh : Heap s h l) (hlater : ∀ p ∈ l, cur < expireOf s p) :
    Fired callbacks cur (h, s) l [] (h, s) where
  linked := rfl
  handles := by
    intro π hπ
    cases hπ
  handled := by
    rw [List.filter_eq_nil_iff.mpr fun p hp => by
      rw [decide_eq_true_eq]
      exact not_le.mpr (hlater p hp)]
    exact .refl _
  inOrder := List.Pairwise.nil
  members := by
    intro before π after hnil
    cases before <;> cases hnil
  calls := (List.append_nil _).symm
  rest := by
    refine ⟨l, hh, ?_⟩
    rw [List.filter_eq_self.mpr fun p hp => decide_eq_true (hlater p hp), List.flatMap_nil,
      List.append_nil]

/-- What one pass does to the heap whose first timer it handles. -/
structure PassEffect (callbacks : Callbacks) (cur : Int) (h : TimeHeap) (s : Store) (l : List Ptr)
    (π : Pass) (l₂ : List Ptr) : Prop where
  start : π.start = (h, s)
  handles : π.Handles callbacks cur
  heap : Heap π.popped.2 π.popped.1 l₂
  perm : l₂.Perm (added (π.made callbacks) ++ l)
  timers : ∀ p ∈ l, π.popped.2.timers p = afterCalls (π.made callbacks) p (s.timers p)
  later : ∀ p ∈ added (π.made callbacks), cur < expireOf π.popped.2 p
  calls : π.popped.2.calls = s.calls ++ (callOf π.members).toList
  capacity : 1 ≤ π.popped.1.capacity
  size : π.popped.1.curSize ≤ 2 ^ 30

/-- A pass handles the first timer of the heap if it is due. -/
theorem pass_effect (hallowed : CallbackMeets (AllowedCalls cur) callbacks (h, s))
    (hfew : CallbackMeets FewCalls callbacks (h, s)) (hsize : h.curSize ≤ 2 ^ 30)
    (hh : Heap s h (x :: l)) (hdue : expireOf s x ≤ cur) :
    ∃ π l₂, π.timer = x ∧ PassEffect callbacks cur h s l π l₂ := by
  have hh₁ : Heap (s.callBack (s.timers x)) h (x :: l) :=
    ⟨hh.toHolds, hh.order.congr (callBack_timers _ _)⟩
  have hdue₁ : expireOf (s.callBack (s.timers x)) x ≤ cur := by
    rw [expireOf, callBack_timers]
    exact hdue
  have hfirst : ∀ {h : TimeHeap} {s : Store} {l : List Ptr}, Heap s h (x :: l) →
      load h.array 0 = .ok (some x) := by
    intro h s l hh
    obtain ⟨rest, harray⟩ := hh.used
    rw [harray]
    rfl
  obtain ⟨h₁, s₁, l₁, hrun, heff⟩ :=
    runCalls_spec _ h _ l hh₁ hdue₁ hsize (hallowed x (hfirst hh)) (hfew x (hfirst hh))
  obtain ⟨h₂, l₂, hpop, hh₂, hcap, hperm⟩ := popTimer_spec heff.heap
  have hpop' := ((popTimerInt_same s₁).eq_of heff.size).trans hpop
  let π : Pass := ⟨x, (h, s), (h₁, s₁), (h₂, { s₁ with deleted := s₁.deleted ++ [x] })⟩
  have hheap₂ : Heap { s₁ with deleted := s₁.deleted ++ [x] } h₂ l₂ := ⟨hh₂.toHolds, hh₂.order⟩
  refine ⟨π, l₂, rfl, rfl, ?_, hheap₂, hperm.trans heff.perm, ?_, heff.later, ?_, ?_, ?_⟩
  · exact ⟨hfirst hh, hdue, hrun, hfirst heff.heap, hpop', ⟨l₁, l₂, heff.heap, hheap₂, hperm⟩, rfl⟩
  · intro p hp
    have htimers := heff.timers p (List.mem_cons_of_mem _ hp)
    rwa [callBack_timers] at htimers
  · show s₁.calls = s.calls ++ (callOf (s.timers x)).toList
    rw [heff.calls, callBack_calls]
  · show 1 ≤ h₂.capacity
    rw [hcap]
    exact le_trans (Nat.succ_le_succ (Nat.zero_le _)) heff.heap.length_le
  · exact (popTimer_curSize.result hpop).trans heff.size

variable {π : Pass} {l₂ : List Ptr}

/-- A pass leaves the expiry of every timer. -/
theorem PassEffect.expire (hπ : PassEffect callbacks cur h s l π l₂) {p : Ptr} (hp : p ∈ l) : expireOf π.popped.2 p = expireOf s p :=
  expireOf_afterCalls (hπ.timers p hp)

/-- A pass leaves what a test of the expiries selects. -/
theorem PassEffect.filter_eq (hπ : PassEffect callbacks cur h s l π l₂) (P : Int → Bool) :
    l.filter (P <| expireOf π.popped.2 ·) = l.filter (P <| expireOf s ·) :=
  List.filter_congr fun _ hp => congrArg P (hπ.expire hp)

/-- The timers still to be handled are those of `l` that are due: the added ones are not. -/
theorem PassEffect.dueLeft (hπ : PassEffect callbacks cur h s l π l₂) :
    (l₂.filter (expireOf π.popped.2 · ≤ cur)).Perm (l.filter (expireOf s · ≤ cur)) := by
  have hadded : (added (π.made callbacks)).filter (expireOf π.popped.2 · ≤ cur) = [] := by
    apply List.filter_eq_nil_iff.mpr
    intro p hp
    rw [decide_eq_true_eq]
    exact not_le.mpr (hπ.later p hp)
  have hfilter := hπ.perm.filter (expireOf π.popped.2 · ≤ cur)
  rw [List.filter_append, hadded, List.nil_append] at hfilter
  exact hfilter.trans (.of_eq (hπ.filter_eq (decide <| · ≤ cur)))

/-- A pass in front of those that handle the remaining timers. -/
theorem PassEffect.cons (hπ : PassEffect callbacks cur h s l π l₂) {passes : List Pass}
    {b : TimeHeap × Store} (hleast : ∀ p ∈ l, expireOf s π.timer ≤ expireOf s p)
    (hps : Fired callbacks cur π.popped l₂ passes b) :
    Fired callbacks cur (h, s) (π.timer :: l) (π :: passes) b := by
  have hstart : π.start = (h, s) := hπ.start
  have hdue : expireOf s π.timer ≤ cur := by
    have hdue := hπ.handles.due
    rwa [hstart] at hdue
  have hmembers : π.members = s.timers π.timer := by rw [Pass.members, hstart]
  have hmem : ∀ p ∈ passes.map Pass.timer, p ∈ l := by
    intro p hp
    exact List.mem_of_mem_filter (hπ.dueLeft.mem_iff.mp (hps.handled.mem_iff.mp hp))
  constructor
  · exact ⟨hstart, hps.linked⟩
  · intro ρ hρ
    rcases List.mem_cons.mp hρ with rfl | hρ
    · exact hπ.handles
    · exact hps.handles ρ hρ
  · rw [List.map_cons, List.filter_cons_of_pos (by rw [decide_eq_true_eq]; exact hdue)]
    exact (hps.handled.trans hπ.dueLeft).cons _
  · rw [List.map_cons, List.pairwise_cons]
    constructor
    · intro p hp
      exact hleast p (hmem p hp)
    · apply hps.inOrder.imp_of_mem
      intro p q hp hq hle
      rwa [hπ.expire (hmem p hp), hπ.expire (hmem q hq)] at hle
  · intro before ρ after heq
    cases before with
    | nil =>
      obtain ⟨rfl, -⟩ := List.cons.inj heq
      exact hmembers
    | cons π' before =>
      obtain ⟨rfl, hpasses⟩ := List.cons.inj heq
      have hρ : ρ.timer ∈ l := by
        apply hmem
        rw [hpasses]
        exact List.mem_map_of_mem (List.mem_append_right _ List.mem_cons_self)
      rw [hps.members before ρ after hpasses, hπ.timers _ hρ, List.flatMap_cons, afterCalls_append]
  · rw [hps.calls, hπ.calls, List.append_assoc, List.filterMap_cons]
    cases callOf π.members <;> rfl
  · obtain ⟨l', hheap, hperm⟩ := hps.rest
    refine ⟨l', hheap, hperm.trans ?_⟩
    have hkeep : (added (π.made callbacks)).filter (cur < expireOf π.popped.2 ·) =
        added (π.made callbacks) :=
      List.filter_eq_self.mpr fun p hp => decide_eq_true (hπ.later p hp)
    have hfilter := hπ.perm.filter (cur < expireOf π.popped.2 ·)
    rw [List.filter_append, hkeep, hπ.filter_eq (decide <| cur < ·)] at hfilter
    rw [List.filter_cons_of_neg (by rw [decide_eq_true_eq]; exact not_lt.mpr hdue),
      List.flatMap_cons, ← List.append_assoc]
    exact (hfilter.trans List.perm_append_comm).append_right _

/-- The loop of `tick`. The induction is on the iterations left: each handles one of the timers
that are due, and no callback adds to these. -/
theorem tickLoopCalling_spec (fuel : Nat) :
    ∀ (tmp : Option Ptr) (h : TimeHeap) (s : Store) (l : List Ptr), Heap s h l →
      AllCallbacksAllowed callbacks cur h s → FewTimers callbacks h s →
      (l.filter (expireOf s · ≤ cur)).length < fuel → (∀ x, l.head? = some x → tmp = some x) →
      ∃ passes b, tickLoopCalling callbacks cur fuel tmp h s = .ok b ∧
        Fired callbacks cur (h, s) l passes b := by
  induction fuel with
  | zero =>
    intro _ _ _ _ _ _ _ hfuel
    exact absurd hfuel (Nat.not_lt_zero _)
  | succ fuel ih =>
    intro tmp h s l hh hallowed hfew hfuel htmp
    unfold tickLoopCalling
    cases l with
    | nil =>
      rw [if_pos hh.empty]
      refine ⟨[], (h, s), rfl, fired_nil hh ?_⟩
      intro p hp
      cases hp
    | cons x l =>
      obtain rfl := htmp x rfl
      simp only [hh.not_empty, Bool.false_eq_true, if_false, Option.isNone_some, deref_some, ok_bind]
      by_cases hlater : (s.timers x).expire > cur
      · rw [if_pos hlater]
        exact ⟨[], (h, s), rfl, fired_nil hh fun p hp => lt_of_lt_of_le hlater (hh.order.head_le hp)⟩
      · have hdue : expireOf s x ≤ cur := not_lt.mp hlater
        obtain ⟨π, l₂, rfl, hπ⟩ :=
          pass_effect (hallowed _ .start) (hfew.callbacks _ .start) hfew.size hh hdue
        have htop := hπ.handles.top
        have hcall := hπ.handles.callback
        rw [Pass.members, hπ.start] at hcall
        rw [hπ.start] at htop
        obtain ⟨q, hload, hq⟩ := hπ.heap.load_first hπ.capacity
        have hleast : ∀ p ∈ l, expireOf s π.timer ≤ expireOf s p :=
          fun p hp => hh.order.head_le (List.mem_cons_of_mem _ hp)
        have hcount := hπ.dueLeft.length_eq
        rw [List.filter_cons_of_pos (by rw [decide_eq_true_eq]; exact hdue), List.length_cons] at hfuel
        have hafter : ∀ b, Met callbacks π.popped b → Met callbacks (h, s) b :=
          fun b hb => hb.after htop hcall hπ.handles.pop
        obtain ⟨passes, b, hloop, hps⟩ := ih q π.popped.1 π.popped.2 l₂ hπ.heap
          (fun b hb => hallowed b (hafter b hb))
          ⟨hπ.size, fun b hb => hfew.callbacks b (hafter b hb)⟩ (by omega) hq
        refine ⟨π :: passes, b, ?_, hπ.cons hleast hps⟩
        rw [if_neg hlater]
        simp only [htop, deref_some, ok_bind, hcall, hπ.handles.pop, hload]
        exact hloop

/-- `tick` fires what is due on a heap whose array has a place and that has at most `2 ^ 30`
timers. -/
theorem fires_of_few (hh : Heap s h l) (hallowed : AllCallbacksAllowed callbacks cur h s)
    (hfew : FewTimers callbacks h s) (hcap : 1 ≤ h.capacity) : Fires callbacks cur h s l := by
  obtain ⟨p, hload, hp⟩ := hh.load_first hcap
  have hfuel : (l.filter (expireOf s · ≤ cur)).length < h.curSize + 1 := by
    rw [hh.size]
    exact Nat.lt_succ_of_le (List.length_filter_le _ _)
  obtain ⟨passes, b, hloop, hfired⟩ :=
    tickLoopCalling_spec (h.curSize + 1) p h s l hh hallowed hfew hfuel hp
  refine ⟨passes, b, ?_, hfired⟩
  rw [TimeHeap.tickCalling, hload, ok_bind]
  exact hloop

/-- The first place is read before anything else. -/
theorem place_of_fires (hh : Heap s h l) (hfires : Fires callbacks cur h s l) : 1 ≤ h.capacity := by
  obtain ⟨passes, b, htick, -⟩ := hfires
  by_contra hzero
  have harray : h.array = [] := by
    apply List.eq_nil_of_length_eq_zero
    rw [hh.room]
    omega
  rw [TimeHeap.tickCalling, harray] at htick
  cases htick

/-- Where a heap has at most `2 ^ 30` timers, `tick` fires what is due if and only if its array has
a place. -/
theorem tick_fires_iff (callbacks : Callbacks) (cur : Int) (h : TimeHeap) (s : Store) (l : List Ptr)
    (hh : Heap s h l) (hallowed : AllCallbacksAllowed callbacks cur h s) :
    (FewTimers callbacks h s → (Fires callbacks cur h s l ↔ 1 ≤ h.capacity)) ∧
      (Fires callbacks cur h s l → 1 ≤ h.capacity) :=
  ⟨fun hfew => ⟨place_of_fires hh, fires_of_few hh hallowed hfew⟩, place_of_fires hh⟩

end Steps

/-- Memory that held null pointers. -/
def noPointers : Nat → Option Ptr := fun _ => none

/-- Callbacks that cancel timer `2` and set a timer `4` for the time `30`. -/
def rearm : Callbacks := fun h _ =>
  if some 4 ∈ h.array.take h.curSize ∨ 2 ^ 30 ≤ h.curSize then []
  else [.del (some 2), .make 4 ⟨30, some 9, 0⟩, .add noPointers (some 4)]

/-- The callbacks keep their rules in every state. -/
theorem rearm_rules (h : TimeHeap) (s : Store) :
    AllowedCalls 10 (rearm h s) h s ∧ FewCalls (rearm h s) h s := by
  unfold rearm
  by_cases hin : some 4 ∈ h.array.take h.curSize ∨ 2 ^ 30 ≤ h.curSize
  · rw [if_pos hin]
    exact ⟨trivial, trivial⟩
  rw [if_neg hin]
  rw [not_or, not_le] at hin
  constructor
  · refine ⟨trivial, ?_⟩
    intro h₁ s₁ hdel
    obtain ⟨rfl, rfl⟩ := Prod.mk.inj (Except.ok.inj hdel)
    refine ⟨hin.1, ?_⟩
    intro h₂ s₂ hmake
    obtain ⟨rfl, rfl⟩ := Prod.mk.inj (Except.ok.inj hmake)
    refine ⟨?_, fun _ _ _ => trivial⟩
    intro p hp
    obtain rfl := Option.some.inj hp
    show (10 : Int) < 30
    decide
  · refine ⟨trivial, ?_⟩
    intro h₁ s₁ hdel
    obtain ⟨rfl, rfl⟩ := Prod.mk.inj (Except.ok.inj hdel)
    refine ⟨trivial, ?_⟩
    intro h₂ s₂ hmake
    obtain ⟨rfl, rfl⟩ := Prod.mk.inj (Except.ok.inj hmake)
    exact ⟨hin.2, fun _ _ _ => trivial⟩

/-- What the callback of a timer does keeps a rule that holds for every callback and for a timer
without one. -/
theorem callbackMeets_of {cond : List HeapCall → TimeHeap → Store → Prop} {callbacks : Callbacks}
    (hnil : ∀ h s, cond [] h s) (hall : ∀ h s, cond (callbacks h s) h s) (b : TimeHeap × Store) :
    CallbackMeets cond callbacks b := by
  intro x _
  unfold madeCalls
  cases (b.2.timers x).cbFunc with
  | none => exact hnil _ _
  | some f => exact hall _ _

/-- The callbacks keep their rules in every heartbeat at the time `10`. -/
theorem rearm_allowed (h : TimeHeap) (s : Store) : AllCallbacksAllowed rearm 10 h s :=
  fun b _ => callbackMeets_of (fun _ _ => trivial) (fun h s => (rearm_rules h s).1) b

/-- The callbacks add no timer to a large heap. -/
theorem rearm_few (h : TimeHeap) (s : Store) (hsize : h.curSize ≤ 2 ^ 30) : FewTimers rearm h s :=
  ⟨hsize, fun b _ => callbackMeets_of (fun _ _ => trivial) (fun h s => (rearm_rules h s).2) b⟩

/-- Two timers for the time `5` and one for the time `20`. -/
def threeTimers : Store := ⟨fun p => ⟨if p = 3 then 20 else 5, some p, 0⟩, [], []⟩

/-- `threeTimers` is a heap. -/
theorem threeTimers_heap : Heap threeTimers ⟨[some 1, some 2, some 3], 3, 3⟩ [1, 2, 3] := by
  refine ⟨⟨⟨[], rfl⟩, rfl, rfl⟩, ?_⟩
  intro i hi hin
  have hcases : i = 1 ∨ i = 2 := by
    have hlt : i < 3 := hin
    omega
  rcases hcases with rfl | rfl
  · exact le_refl (5 : Int)
  · show (5 : Int) ≤ 20
    decide

/-- A heartbeat at the time `10` on a full array: the callback of the first timer grows the
array and cancels the second one, which is handled without being called. -/
theorem tick_fires_rearmed : Fires rearm 10 ⟨[some 1, some 2, some 3], 3, 3⟩ threeTimers [1, 2, 3] :=
  ((tick_fires_iff rearm 10 _ _ _ threeTimers_heap (rearm_allowed _ _)).1
    (rearm_few _ _ (by decide))).mpr (by decide)

/-- The heap without a place reads behind its array. -/
theorem tick_fires_not_always :
    ¬ ∀ (callbacks : Callbacks) (cur : Int) (h : TimeHeap) (s : Store) (l : List Ptr), Heap s h l →
      AllCallbacksAllowed callbacks cur h s → Fires callbacks cur h s l := by
  intro hall
  have hheap : Heap threeTimers (TimeHeap.create 0) [] := ⟨create_holds 0, heapOrdered_nil _⟩
  obtain ⟨passes, b, htick, -⟩ := hall (fun _ _ => []) 0 _ _ _ hheap
    fun b _ => callbackMeets_of (fun _ _ => trivial) (fun _ _ => trivial) b
  have hfault : (TimeHeap.create 0).tickCalling (fun _ _ => []) threeTimers 0 = .error .outOfBounds :=
    rfl
  rw [hfault] at htick
  cases htick

end ServerListings.Analysis.TickCallbacks
