import ServerListings.Lib.Transition
import ServerListings.Interface.HeapInts

/-!
# The subscripts of the time heap

A program makes a heap with one of the two constructors and uses it, also in the callbacks that
`tick` calls. Where the array has a place, no subscript that an operation evaluates lies outside
its array, as long as the sizes leave room in an `int` (`IntsFit`). An array without a place stays one: `resize` doubles its capacity, so the first
timer is stored behind it, and `tick` reads its first element before it asks whether the heap is
empty.
-/

set_option autoImplicit false

namespace ServerListings.Analysis.TimeHeapBounds

open Lib.CMem Lib.Transition ServerListings.Model ServerListings.Interface

/-- The heaps that the constructors make, when they do not throw. -/
inductive Made : HeapUse → Prop where
  | create (memory : Nat → Option Ptr) (cap : Int) (s : Store) {h : TimeHeap} :
      TimeHeap.createInt memory cap = .ok (some h) → Made ⟨h, s, []⟩
  | ofArray (memory : Nat → Option Ptr) (s : Store) (initArray : List (Option Ptr)) (capacity : Int)
      {h : TimeHeap} :
      TimeHeap.ofArrayInt memory s initArray capacity = .ok (some h) → Made ⟨h, s, []⟩

/-- A program uses a heap: the states between the actions. -/
def Reached (u₀ u : HeapUse) : Prop :=
  Run (fun u (a : HeapAction) u' => u.step a = some (.ok u')) (fun _ _ => True) u₀ u

/-- The computation comes to an end, none of its subscripts is outside an array, and none
overflows. -/
structure InRange {α : Type} (x : Checked α) : Prop where
  bounds : x ≠ .error .outOfBounds
  ends : x ≠ .error .outOfFuel
  fits : x ≠ .error .overflow

/-- The first timer of an empty heap and every heartbeat need a place in the array. -/
def needsPlace : HeapAction → Bool
  | .call (.add _ (some _)) => true
  | .call (.tick _) => true
  | _ => false

/-- The faults that are left to an operation on an array with a place. -/
def Spared (p : Prop) (e : Fault) : Prop := IsNull e ∨ e = .overflow ∧ ¬ p

/-- What has no fault but a null pointer is in range, where the sizes fit. -/
theorem inRange_of_outcome {α : Type} {x : Checked α} {Q : α → Prop} {p : Prop}
    (hx : Outcome x Q (Spared p)) (hp : p) : InRange x := by
  constructor
  · exact hx.ne_error (by rintro (⟨⟨⟩⟩ | ⟨⟨⟩, _⟩))
  · exact hx.ne_error (by rintro (⟨⟨⟩⟩ | ⟨⟨⟩, _⟩))
  · exact hx.ne_error (by rintro (⟨⟨⟩⟩ | ⟨_, hnot⟩); exact hnot hp)

/-- A null pointer is no subscript out of range. -/
theorem isNull_spared (p : Prop) (e : Fault) (he : IsNull e) : Spared p e := Or.inl he

/-! ## An array with a place -/

/-- The heap has a place for a timer. -/
structure Placed (u : HeapUse) : Prop where
  room : Room u.heap
  capacity : 1 ≤ u.heap.capacity

section Placed

variable {u : HeapUse}

/-- A heap with a place pops in range. -/
theorem Placed.pop (hu : Placed u) :
    Outcome (u.heap.popTimerInt u.store) (fun r => Room r.1 ∧ r.1.capacity = u.heap.capacity)
      (Spared (IntsFit u.heap)) :=
  ((popTimerInt_same u.store).mono IntsFit.size).outcome (popTimer_bounds hu.room hu.capacity u.store)

/-- A heap with a place has a first element. -/
theorem Placed.loadFirst {h : TimeHeap} (hr : Room h) (hcap : 1 ≤ h.capacity) (p : Prop) :
    Outcome (load h.array 0) (fun _ => True) (Spared p) := by
  have hlen := hr.length
  exact (outcome_load (by omega)).mono (fun _ _ => trivial) fun _ he => he

/-- The removal of a timer by `tick` is in range. -/
theorem Placed.popFirst (hu : Placed u) (cur : Int) (ticks : List TickCall) :
    Outcome (u.popFirst cur ticks) Placed (Spared (IntsFit u.heap)) := by
  refine hu.pop.bind fun r hr => ?_
  have hcap : 1 ≤ r.1.capacity := by
    rw [hr.2]
    exact hu.capacity
  exact (Placed.loadFirst hr.1 hcap _).bind fun tmp _ => outcome_pure ⟨hr.1, hcap⟩

/-- A round of `tick` is in range. -/
theorem Placed.turn (hu : Placed u) (cur : Int) (tmp : Option Ptr) (ticks : List TickCall) :
    Outcome (u.turn cur tmp ticks) Placed (Spared (IntsFit u.heap)) := by
  have hend : Placed { u with ticks := ticks } := ⟨hu.room, hu.capacity⟩
  have hderef : ∀ p, Outcome (u.store.deref p) (fun _ => True) (Spared (IntsFit u.heap)) :=
    fun p => (outcome_deref u.store p).mono (fun _ h => h) (isNull_spared _)
  unfold HeapUse.turn
  split
  · exact outcome_pure hend
  split
  · exact outcome_pure hend
  refine (hderef tmp).bind fun tmpTimer _ => ?_
  split
  · exact outcome_pure hend
  refine (Placed.loadFirst hu.room hu.capacity _).bind fun q _ => (hderef q).bind fun first _ => ?_
  split
  · exact outcome_pure ⟨hu.room, hu.capacity⟩
  · exact hu.popFirst cur ticks

/-- A call of a heap with a place is in range. -/
theorem Placed.call (hu : Placed u) (op : HeapOp) :
    Outcome (u.call op) Placed (Spared (IntsFit u.heap)) := by
  cases op with
  | make p timer => exact outcome_pure ⟨hu.room, hu.capacity⟩
  | add memory timer =>
    have hadd := (addTimerInt_same memory u.store timer).outcome
      (addTimer_bounds hu.room hu.capacity u.store timer)
    exact Outcome.bind hadd fun r hr => outcome_pure ⟨hr.1, hr.2⟩
  | del timer => exact outcome_pure ⟨hu.room, hu.capacity⟩
  | pop => exact hu.pop.bind fun r hr => outcome_pure ⟨hr.1, by rw [hr.2]; exact hu.capacity⟩
  | top =>
    have htop := (top_bounds hu.room).mono (fun _ h => h) (isNull_spared (IntsFit u.heap))
    exact htop.bind fun _ _ => outcome_pure hu
  | tick cur =>
    exact (Placed.loadFirst hu.room hu.capacity _).bind fun tmp _ =>
      outcome_pure ⟨hu.room, hu.capacity⟩

/-- What one action of a program does to a heap with a place. -/
theorem Placed.step (hu : Placed u) {a : HeapAction} {x : Checked HeapUse} (hx : u.step a = some x) :
    Outcome x Placed (Spared (IntsFit u.heap)) := by
  unfold HeapUse.step at hx
  split at hx <;> cases hx
  · exact hu.call _
  · exact hu.call _
  · exact hu.turn _ _ _
  · exact hu.popFirst _ _

/-- A heap with a place keeps it. -/
theorem Placed.reached {u₀ : HeapUse} (hu : Placed u₀) (hrun : Reached u₀ u) : Placed u :=
  hrun.invariant hu fun _ _ _ hs hstep _ => (hs.step hstep).result rfl

end Placed

/-! ## An array without a place -/

/-- The array has no element, and no heartbeat has come through its first access. -/
structure Placeless (u : HeapUse) : Prop where
  heap : u.heap = ⟨[], 0, 0⟩
  ticks : u.ticks = []

section Placeless

variable {u : HeapUse}

/-- A call that needs a place accesses one outside the array, the other ones change nothing of
the heap. -/
theorem Placeless.call (hu : Placeless u) (op : HeapOp) :
    if needsPlace (.call op) then u.call op = .error .outOfBounds
    else ∃ u', u.call op = .ok u' ∧ Placeless u' := by
  obtain ⟨h, s, ticks⟩ := u
  obtain ⟨rfl, rfl⟩ : h = ⟨[], 0, 0⟩ ∧ ticks = [] := ⟨hu.heap, hu.ticks⟩
  cases op with
  | make p timer => exact ⟨_, rfl, rfl, rfl⟩
  | add memory timer =>
    cases timer with
    | none => exact ⟨_, rfl, rfl, rfl⟩
    | some p => exact rfl
  | del timer => exact ⟨_, rfl, rfl, rfl⟩
  | pop => exact ⟨_, rfl, rfl, rfl⟩
  | top => exact ⟨_, rfl, rfl, rfl⟩
  | tick cur => exact rfl

/-- On a heap without a place the operations that need one are out of range, and the others
succeed. -/
theorem Placeless.step (hu : Placeless u) {a : HeapAction} {x : Checked HeapUse}
    (hx : u.step a = some x) :
    if needsPlace a then x = .error .outOfBounds else ∃ u', x = .ok u' ∧ Placeless u' := by
  obtain ⟨h, s, ticks⟩ := u
  obtain rfl : ticks = [] := hu.ticks
  cases a with
  | call op =>
    obtain rfl := Option.some.inj hx
    exact hu.call op
  | turn => cases hx
  | back => cases hx

/-- A heap without a place gets none. -/
theorem Placeless.reached {u₀ : HeapUse} (hu : Placeless u₀) (hrun : Reached u₀ u) :
    Placeless u := by
  refine hrun.invariant hu fun s a s' hs hstep _ => ?_
  have h := hs.step hstep
  split at h
  · cases h
  · obtain ⟨u', hu', hless⟩ := h
    rwa [Except.ok.inj hu']

end Placeless

/-! ## Every use of a heap -/

/-- The constructor from an array is in range where the sizes fit. -/
theorem ofArrayInt_bounds (memory : Nat → Option Ptr) (s : Store) (initArray : List (Option Ptr))
    (capacity : Int) :
    Outcome (TimeHeap.ofArrayInt memory s initArray capacity) (fun r => ∀ h, r = some h → Room h)
      (Spared (initArray.length ≤ 2 ^ 30)) := by
  by_cases hneg : capacity < initArray.length
  · rw [TimeHeap.ofArrayInt, if_pos hneg]
    exact outcome_pure (by simp)
  · obtain ⟨n, rfl⟩ := Int.eq_ofNat_of_zero_le (by omega : 0 ≤ capacity)
    exact ((ofArrayInt_same memory s initArray n).outcome (ofArray_bounds s initArray n)).mono
      (fun r hr h hh => (hr h hh).1) fun _ he => he

/-- The constructor of an empty heap is in range. -/
theorem createInt_bounds (memory : Nat → Option Ptr) (cap : Int) :
    Outcome (TimeHeap.createInt memory cap) (fun r => ∀ h, r = some h → Room h) (Spared True) := by
  by_cases hneg : cap < 0
  · rw [TimeHeap.createInt, if_pos hneg]
    exact outcome_pure (by simp)
  · obtain ⟨n, rfl⟩ := Int.eq_ofNat_of_zero_le (Int.not_lt.mp hneg)
    rw [show ((n : Int)) = n from rfl, createInt_eq]
    refine outcome_ok ?_
    rintro h ⟨⟩
    exact ⟨List.length_replicate, Nat.zero_le _⟩

/-- A constructor makes a heap with a place or one without any. -/
theorem Made.placed {u : HeapUse} (hu : Made u) :
    if 1 ≤ u.heap.capacity then Placed u else Placeless u := by
  have hroom : Room u.heap ∧ u.ticks = [] := by
    cases hu with
    | create memory cap s hmade => exact ⟨(createInt_bounds memory cap).result hmade _ rfl, rfl⟩
    | ofArray memory s initArray capacity hmade =>
      exact ⟨(ofArrayInt_bounds memory s initArray capacity).result hmade _ rfl, rfl⟩
  obtain ⟨hr, hticks⟩ := hroom
  split
  · exact ⟨hr, by assumption⟩
  · have hzero : u.heap.capacity = 0 := by omega
    have hlen := hr.length
    have hsize := hr.size
    rw [hzero] at hlen hsize
    refine ⟨?_, hticks⟩
    obtain ⟨⟨array, capacity, curSize⟩, s, ticks⟩ := u
    simp only at hzero hlen hsize
    rw [hzero, List.length_eq_zero_iff.mp hlen, Nat.le_zero.mp hsize]

/-- The constructors access no place outside their arrays, the second one with up to `2 ^ 30`
timers. -/
theorem constructors_in_range :
    (∀ memory cap, InRange (TimeHeap.createInt memory cap)) ∧
      ∀ memory s initArray capacity, initArray.length ≤ 2 ^ 30 →
        InRange (TimeHeap.ofArrayInt memory s initArray capacity) := by
  constructor
  · intro memory cap
    exact inRange_of_outcome (createInt_bounds memory cap) trivial
  · intro memory s initArray capacity hsize
    exact inRange_of_outcome (ofArrayInt_bounds memory s initArray capacity) hsize

/-- On a heap in use whose sizes leave room in an `int`, the actions that need a place access one
outside the array if and only if the heap was made with capacity 0. No other action and no
constructor does. -/
theorem subscripts_in_range_iff {u₀ u : HeapUse} {a : HeapAction} {x : Checked HeapUse}
    (hmade : Made u₀) (hrun : Reached u₀ u) (hx : u.step a = some x) :
    (IntsFit u.heap → (InRange x ↔ 1 ≤ u₀.heap.capacity ∨ needsPlace a = false)) ∧
      (InRange x → 1 ≤ u₀.heap.capacity ∨ needsPlace a = false) ∧
      u.heap.curSize ≤ u.heap.capacity ∧
      (∀ memory cap, InRange (TimeHeap.createInt memory cap)) ∧
      ∀ memory s initArray capacity, initArray.length ≤ 2 ^ 30 →
        InRange (TimeHeap.ofArrayInt memory s initArray capacity) := by
  have hplace := hmade.placed
  by_cases hcap : 1 ≤ u₀.heap.capacity
  · rw [if_pos hcap] at hplace
    have hu := hplace.reached hrun
    have hstep := hu.step hx
    refine ⟨fun hfits => ?_, fun _ => Or.inl hcap, hu.room.size, constructors_in_range⟩
    exact iff_of_true (inRange_of_outcome hstep hfits) (Or.inl hcap)
  · rw [if_neg hcap] at hplace
    have hu := hplace.reached hrun
    have hstep := hu.step hx
    have hsize : u.heap.curSize ≤ u.heap.capacity := by
      rw [hu.heap]
    cases hneeds : needsPlace a with
    | true =>
      rw [if_pos hneeds] at hstep
      have hout : ¬ InRange x := fun h => h.bounds hstep
      refine ⟨fun _ => ?_, fun h => absurd h hout, hsize, constructors_in_range⟩
      exact iff_of_false hout (by simp [hcap])
    | false =>
      rw [if_neg (by simp [hneeds])] at hstep
      obtain ⟨u', rfl, _⟩ := hstep
      refine ⟨fun _ => ?_, fun _ => Or.inr rfl, hsize, constructors_in_range⟩
      exact iff_of_true ⟨by simp, by simp, by simp⟩ (Or.inr rfl)

/-- Memory that held null pointers, and timers that are due in the order of their addresses. -/
def noPointers : Nat → Option Ptr := fun _ => none
def byAddress : Store := ⟨fun p => ⟨p, none, 0⟩, [], []⟩

/-- A heap of capacity 1 with one timer, to which another one is added. -/
theorem subscripts_in_range_grown :
    InRange (HeapUse.call ⟨⟨[some 2], 1, 1⟩, byAddress, []⟩ (.add noPointers (some 1))) := by
  have hmade : Made ⟨⟨[none], 1, 0⟩, byAddress, []⟩ := .create noPointers 1 byAddress rfl
  have hrun : Reached ⟨⟨[none], 1, 0⟩, byAddress, []⟩ ⟨⟨[some 2], 1, 1⟩, byAddress, []⟩ :=
    Run.refl.step (l := .call (.add noPointers (some 2))) rfl trivial
  have hx : HeapUse.step ⟨⟨[some 2], 1, 1⟩, byAddress, []⟩ (.call (.add noPointers (some 1))) =
      some (HeapUse.call ⟨⟨[some 2], 1, 1⟩, byAddress, []⟩ (.add noPointers (some 1))) := rfl
  have hfits : IntsFit ⟨[some 2], 1, 1⟩ := ⟨by decide, Or.inr (by decide)⟩
  exact ((subscripts_in_range_iff hmade hrun hx).1 hfits).mpr (Or.inl (Nat.le_refl 1))

/-- A heap of capacity 0: the first timer is stored outside the array, and so is the first
element that `tick` reads. -/
theorem subscripts_not_in_range :
    ¬ ∀ u₀ u a x, Made u₀ → Reached u₀ u → u.step a = some x → InRange x := by
  intro h
  have hmade : Made ⟨⟨[], 0, 0⟩, byAddress, []⟩ := .create noPointers 0 byAddress rfl
  exact (h _ _ (.call (.add noPointers (some 1))) _ hmade .refl rfl).bounds rfl

end ServerListings.Analysis.TimeHeapBounds
