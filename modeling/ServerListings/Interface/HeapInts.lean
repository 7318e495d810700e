import ServerListings.Model.TimeHeapInts

/-!
# The array of the time heap has the length it is taken to have

`Room h` ties `cur_size`, `capacity` and the length of the array. Each operation keeps it, and
where the array has a place none of its subscripts is outside an array: the only fault that is
left is a null pointer among the timers. The operations with checked arithmetic are the same as
those on numbers unless an `int` overflows (`SameUnless`).
-/

set_option autoImplicit false

namespace ServerListings.Interface

open Lib.CMem ServerListings.Model

/-- The used part lies in the array. -/
structure Room (h : TimeHeap) : Prop where
  length : h.array.length = h.capacity
  size : h.curSize ≤ h.capacity

/-- The fault of an operation on a heap that holds null pointers. -/
def IsNull (e : Fault) : Prop := e = .nullPointer

/-- Only a null pointer refers to no object. -/
theorem outcome_deref (s : Store) (p : Option Ptr) : Outcome (s.deref p) (fun _ => True) IsNull := by
  cases p with
  | none => exact outcome_error rfl
  | some p => exact outcome_ok trivial

section Bounds

variable {s : Store} {curSize : Nat} {temp : Option Ptr}

/-! ## Sifting -/

/-- The lesser of the two children is in the used part. -/
theorem lesserChild_bounds {array : List (Option Ptr)} {child : Nat} (hlen : curSize ≤ array.length)
    (hchild : child ≤ curSize - 1) (hpos : 0 < child) :
    Outcome (lesserChild s curSize array child) (fun c => child ≤ c ∧ c ≤ curSize - 1) IsNull := by
  unfold lesserChild
  by_cases hright : child < curSize - 1
  · rw [if_pos hright]
    refine (outcome_load (by omega)).bind fun q _ => (outcome_deref s q).bind fun right _ => ?_
    refine (outcome_load (by omega)).bind fun q _ => (outcome_deref s q).bind fun left _ => ?_
    apply outcome_pure
    split <;> omega
  · rw [if_neg hright]
    exact outcome_pure ⟨Nat.le_refl _, hchild⟩

/-- The hole moves to greater positions of the used part. -/
theorem percolateLoop_bounds (fuel : Nat) : ∀ (array : List (Option Ptr)) (hole : Nat),
    curSize ≤ array.length → hole < array.length → hole ≤ curSize → curSize < hole + fuel →
    Outcome (percolateLoop s curSize temp fuel array hole)
      (fun r => r.1.length = array.length ∧ r.2 < array.length) IsNull := by
  induction fuel with
  | zero =>
    intro array hole _ _ hhole hfuel
    omega
  | succ fuel ih =>
    intro array hole hlen hlt hhole hfuel
    unfold percolateLoop
    by_cases hchild : hole * 2 + 1 ≤ curSize - 1
    · rw [if_pos hchild]
      refine (lesserChild_bounds hlen hchild (Nat.succ_pos _)).bind fun child hc => ?_
      refine (outcome_load (by omega)).bind fun c _ => ?_
      refine (outcome_deref s c).bind fun childTimer _ => ?_
      refine (outcome_deref s temp).bind fun tempTimer _ => ?_
      split
      · refine (outcome_store c hlt).bind fun array' harray => ?_
        rw [harray]
        have hih := ih (array.set hole c) child (by rwa [List.length_set])
          (by rw [List.length_set]; omega) (by omega) (by omega)
        rwa [List.length_set] at hih
      · exact outcome_pure ⟨rfl, hlt⟩
    · rw [if_neg hchild]
      exact outcome_pure ⟨rfl, hlt⟩

/-- Sifting down from the used part leaves the array and its size as they are. -/
theorem percolateDown_bounds {h : TimeHeap} {hole : Nat} (hr : Room h) (hlt : hole < h.capacity)
    (hhole : hole ≤ h.curSize) :
    Outcome (h.percolateDown s hole)
      (fun h' => Room h' ∧ h'.capacity = h.capacity ∧ h'.curSize = h.curSize) IsNull := by
  have hlen := hr.length
  have hsize := hr.size
  unfold TimeHeap.percolateDown
  refine (outcome_load (by omega)).bind fun temp _ => ?_
  refine (percolateLoop_bounds (h.curSize + 1) h.array hole (by omega) (by omega) hhole
    (by omega)).bind fun r hbounds => ?_
  refine (outcome_store temp (by omega)).bind fun array harray => ?_
  rw [harray]
  refine outcome_pure ⟨⟨?_, hsize⟩, rfl, rfl⟩
  rw [List.length_set, hbounds.1, hlen]

/-- The loop that builds the heap stays in the used part. -/
theorem buildLoop_bounds (n : Nat) : ∀ h : TimeHeap, Room h → n ≤ h.curSize →
    Outcome (buildLoop s n h) (fun h' => Room h' ∧ h'.capacity = h.capacity) IsNull := by
  induction n with
  | zero =>
    intro h hr _
    exact outcome_pure ⟨hr, rfl⟩
  | succ n ih =>
    intro h hr hn
    have hsize := hr.size
    refine (percolateDown_bounds hr (by omega) (by omega)).bind fun h₁ hh₁ => ?_
    obtain ⟨hr₁, hcap₁, hsize₁⟩ := hh₁
    refine (ih h₁ hr₁ (by omega)).mono ?_ fun _ he => he
    intro h' hh'
    exact ⟨hh'.1, hh'.2.trans hcap₁⟩

/-- A heap made from an array has that capacity, and its timers lie in the array. -/
theorem ofArray_bounds (s : Store) (initArray : List (Option Ptr)) (capacity : Nat) :
    Outcome (TimeHeap.ofArray s initArray capacity)
      (fun r => ∀ h, r = some h → Room h ∧ h.capacity = capacity) IsNull := by
  unfold TimeHeap.ofArray
  by_cases hlt : capacity < initArray.length
  · rw [if_pos hlt]
    exact outcome_pure (by simp)
  · have hr : Room ⟨initArray ++ List.replicate (capacity - initArray.length) none, capacity,
        initArray.length⟩ := by
      refine ⟨?_, Nat.not_lt.mp hlt⟩
      show (initArray ++ List.replicate (capacity - initArray.length) none).length = capacity
      rw [List.length_append, List.length_replicate]
      omega
    rw [if_neg hlt]
    by_cases hempty : initArray.length ≠ 0
    · rw [if_pos hempty]
      refine (buildLoop_bounds _ _ hr ?_).bind fun h hh => outcome_pure ?_
      · show (initArray.length - 1) / 2 + 1 ≤ initArray.length
        omega
      · rintro h' ⟨⟩
        exact hh
    · rw [if_neg hempty]
      refine outcome_pure ?_
      rintro h' ⟨⟩
      exact ⟨hr, rfl⟩

/-- The hole moves to smaller positions, which are in the array. -/
theorem addLoop_bounds (fuel : Nat) : ∀ (array : List (Option Ptr)) (hole : Nat),
    hole < array.length → hole < fuel →
    Outcome (addLoop s temp fuel array hole)
      (fun r => r.1.length = array.length ∧ r.2 < array.length) IsNull := by
  induction fuel with
  | zero =>
    intro array hole _ hfuel
    omega
  | succ fuel ih =>
    intro array hole hlt hfuel
    unfold addLoop
    by_cases hpos : hole > 0
    · rw [if_pos hpos]
      refine (outcome_load (by omega)).bind fun p _ => ?_
      refine (outcome_deref s p).bind fun parentTimer _ => ?_
      refine (outcome_deref s temp).bind fun newTimer _ => ?_
      split
      · exact outcome_pure ⟨rfl, hlt⟩
      · refine (outcome_store p hlt).bind fun array' harray => ?_
        rw [harray]
        have hih := ih (array.set hole p) ((hole - 1) / 2) (by rw [List.length_set]; omega) (by omega)
        rwa [List.length_set] at hih
    · rw [if_neg hpos]
      exact outcome_pure ⟨rfl, hlt⟩

/-! ## Growing -/

/-- The copy of `resize` stays in both arrays. -/
theorem resizeLoop_bounds {array : List (Option Ptr)} (n : Nat) :
    ∀ (i : Nat) (temp : List (Option Ptr)) (s : Store), i + n ≤ array.length → i + n ≤ temp.length →
    Outcome (resizeLoop array n i temp s) (fun r => r.1.length = temp.length) IsNull := by
  induction n with
  | zero =>
    intro i temp s _ _
    exact outcome_pure rfl
  | succ n ih =>
    intro i temp s harray htemp
    refine (outcome_load (by omega)).bind fun p _ => ?_
    refine (outcome_store p (by omega)).bind fun temp' hset => ?_
    rw [hset]
    have hih := ih (i + 1) (temp.set i p) (s.delete p) (by omega) (by rw [List.length_set]; omega)
    rwa [List.length_set] at hih

variable {h : TimeHeap}

/-- A heap with a place has room for one more timer afterwards. -/
theorem makeRoom_bounds (hr : Room h) (hcap : 1 ≤ h.capacity) (s : Store) :
    Outcome (h.makeRoom s)
      (fun r => Room r.1 ∧ r.1.curSize = h.curSize ∧ h.curSize < r.1.capacity) IsNull := by
  have hsize := hr.size
  have hlen := hr.length
  unfold TimeHeap.makeRoom
  by_cases hfull : h.curSize ≥ h.capacity
  · rw [if_pos hfull]
    refine (resizeLoop_bounds h.curSize 0 _ s (by omega) ?_).bind fun r hr' => outcome_pure ?_
    · rw [List.length_replicate]
      omega
    · rw [List.length_replicate] at hr'
      refine ⟨⟨hr', ?_⟩, rfl, ?_⟩
      · show h.curSize ≤ 2 * h.capacity
        omega
      · show h.curSize < 2 * h.capacity
        omega
  · rw [if_neg hfull]
    refine outcome_pure ⟨hr, rfl, ?_⟩
    show h.curSize < h.capacity
    omega

/-! ## The operations -/

/-- An addition keeps the used part in the array. -/
theorem addTimer_bounds (hr : Room h) (hcap : 1 ≤ h.capacity) (s : Store) (timer : Option Ptr) :
    Outcome (h.addTimer s timer) (fun r => Room r.1 ∧ 1 ≤ r.1.capacity) IsNull := by
  cases timer with
  | none => exact outcome_pure ⟨hr, hcap⟩
  | some p =>
    refine (makeRoom_bounds hr hcap s).bind fun r hroom => ?_
    obtain ⟨h₁, s₁⟩ := r
    obtain ⟨hr₁, hsize₁, hlt⟩ := hroom
    have hlen := hr₁.length
    simp only at hlen hsize₁ hlt
    refine (addLoop_bounds (h₁.curSize + 1) h₁.array h₁.curSize (by omega) (by omega)).bind
      fun a ha => ?_
    refine (outcome_store (some p) (by omega)).bind fun array harray => ?_
    rw [harray]
    refine outcome_pure ⟨⟨?_, ?_⟩, ?_⟩
    · rw [List.length_set, ha.1, hlen]
    · show h₁.curSize + 1 ≤ h₁.capacity
      omega
    · show 1 ≤ h₁.capacity
      omega

/-- The removal of the first timer keeps the used part in the array. -/
theorem popTimer_bounds (hr : Room h) (hcap : 1 ≤ h.capacity) (s : Store) :
    Outcome (h.popTimer s) (fun r => Room r.1 ∧ r.1.capacity = h.capacity) IsNull := by
  have hlen := hr.length
  have hsize := hr.size
  unfold TimeHeap.popTimer
  cases hempty : h.empty with
  | true => exact outcome_pure ⟨hr, rfl⟩
  | false =>
    rw [if_neg (by simp)]
    refine (outcome_load (by omega)).bind fun first _ => ?_
    cases first with
    | none => exact outcome_pure ⟨hr, rfl⟩
    | some p =>
      refine (outcome_load (by omega)).bind fun last _ => ?_
      refine (outcome_store last (by omega)).bind fun array harray => ?_
      have hr₁ : Room { h with array := array, curSize := h.curSize - 1 } := by
        refine ⟨?_, ?_⟩
        · show array.length = h.capacity
          rw [harray, List.length_set, hlen]
        · show h.curSize - 1 ≤ h.capacity
          omega
      refine (percolateDown_bounds hr₁ hcap (Nat.zero_le _)).bind fun h₂ hh₂ => ?_
      exact outcome_pure ⟨hh₂.1, hh₂.2.1⟩

/-- The first timer is read in the array. -/
theorem top_bounds (hr : Room h) : Outcome h.top (fun _ => True) IsNull := by
  unfold TimeHeap.top
  cases hempty : h.empty with
  | true => exact outcome_pure trivial
  | false =>
    have hlen := hr.length
    have hsize := hr.size
    have hne : h.curSize ≠ 0 := by simpa [TimeHeap.empty] using hempty
    rw [if_neg (by simp)]
    exact (outcome_load (by omega)).mono (fun _ _ => trivial) fun _ he => he

end Bounds

/-! ## Arithmetic of `int` -/

section Ints

variable {s : Store} {h : TimeHeap}

/-- The `int` expressions of the operations fit. -/
structure IntsFit (h : TimeHeap) : Prop where
  size : h.curSize ≤ 2 ^ 30
  double : h.curSize < h.capacity ∨ ((2 * h.capacity : Nat) : Int) ≤ intMax

/-- The lesser child is no further than the last timer. -/
theorem lesserChild_le {curSize child : Nat} {array : List (Option Ptr)} (hchild : child ≤ curSize - 1) :
    Ensures (lesserChild s curSize array child) (· ≤ curSize - 1) := by
  unfold lesserChild
  by_cases hright : child < curSize - 1
  · rw [if_pos hright]
    refine ensures_bind fun _ => ensures_bind fun right => ensures_bind fun _ => ensures_bind fun left =>
      ensures_pure ?_
    split <;> omega
  · rw [if_neg hright]
    exact ensures_pure hchild

/-- The loop of `percolate_down` on `int` is that on numbers, unless `hole * 2 + 1` overflows. -/
theorem percolateLoopInt_same {curSize : Nat} {temp : Option Ptr} (fuel : Nat) :
    ∀ (array : List (Option Ptr)) (hole : Nat), hole ≤ curSize - 1 →
    SameUnless (curSize ≤ 2 ^ 30) (percolateLoopInt s curSize temp fuel array hole)
      (percolateLoop s curSize temp fuel array hole) := by
  induction fuel with
  | zero =>
    intro array hole _
    exact sameUnless_refl _ _
  | succ fuel ih =>
    intro array hole hhole
    have hfits : curSize ≤ 2 ^ 30 → ((hole * 2 + 1 : Nat) : Int) ≤ intMax := by
      intro hsize
      unfold intMax
      omega
    unfold percolateLoopInt percolateLoop
    apply sameUnless_intOf hfits
    by_cases hchild : hole * 2 + 1 ≤ curSize - 1
    · rw [if_pos hchild, if_pos hchild]
      refine (sameUnless_refl _ _).bind fun child hc => ?_
      refine (sameUnless_refl _ _).bind fun c _ => ?_
      refine (sameUnless_refl _ _).bind fun childTimer _ => ?_
      refine (sameUnless_refl _ _).bind fun tempTimer _ => ?_
      split
      · refine (sameUnless_refl _ _).bind fun array' _ => ?_
        exact ih array' child ((lesserChild_le hchild).result hc)
      · exact sameUnless_refl _ _
    · rw [if_neg hchild, if_neg hchild]
      exact sameUnless_refl _ _

/-- `percolate_down` on `int` is that on numbers up to 2^30 timers. -/
theorem percolateDownInt_same {hole : Nat} (hhole : hole ≤ h.curSize - 1) :
    SameUnless (h.curSize ≤ 2 ^ 30) (h.percolateDownInt s hole) (h.percolateDown s hole) := by
  refine (sameUnless_refl _ _).bind fun temp _ => ?_
  exact (percolateLoopInt_same _ _ _ hhole).bind fun r _ => sameUnless_refl _ _

/-- Sifting down leaves the number of timers as it is. -/
theorem percolateDown_curSize {hole : Nat} :
    Ensures (h.percolateDown s hole) (fun h' => h'.curSize = h.curSize) :=
  ensures_bind fun _ => ensures_bind fun _ => ensures_bind fun _ => ensures_pure rfl

/-- The loop that builds the heap is the same on `int` up to 2^30 timers. -/
theorem buildLoopInt_same (n : Nat) : ∀ h : TimeHeap, n ≤ h.curSize →
    SameUnless (h.curSize ≤ 2 ^ 30) (buildLoopInt s n h) (buildLoop s n h) := by
  induction n with
  | zero =>
    intro h _
    exact sameUnless_refl _ _
  | succ n ih =>
    intro h hn
    refine (percolateDownInt_same (by omega)).bind fun h₁ hdown => ?_
    have hsize := percolateDown_curSize.result hdown
    have hih := ih h₁ (by omega)
    rwa [hsize] at hih

/-! ## Arrays that are cleared and copied -/

/-- The loop over a new array clears what is left of it. -/
theorem clearLoop_append (n : Nat) : ∀ done rest : List (Option Ptr), rest.length = n →
    clearLoop n done.length (done ++ rest) = .ok (done ++ List.replicate n none) := by
  induction n with
  | zero =>
    intro done rest hrest
    rw [List.length_eq_zero_iff.mp hrest]
    rfl
  | succ n ih =>
    intro done rest hrest
    cases rest with
    | nil => cases hrest
    | cons q rest =>
      have hih := ih (done ++ [none]) rest (Nat.succ.inj hrest)
      rw [List.length_append, List.append_assoc, List.append_assoc] at hih
      rw [clearLoop, store_append_cons, ok_bind, List.replicate_succ]
      exact hih

/-- A new array holds null pointers when it was cleared, whatever it held before. -/
theorem clearLoop_newArray (memory : Nat → Option Ptr) (n : Nat) :
    clearLoop n 0 (newArray memory n) = .ok (List.replicate n none) :=
  clearLoop_append n [] (newArray memory n) (by rw [newArray, List.length_map, List.length_range])

/-- The loop over the given timers copies what is left of them. -/
theorem copyLoop_append (k : Nat) (l : List (Option Ptr)) : ∀ done : List (Option Ptr),
    copyLoop (done ++ l) l.length done.length (done ++ List.replicate (l.length + k) none) =
      .ok (done ++ l ++ List.replicate k none) := by
  induction l with
  | nil =>
    intro done
    rw [List.append_nil, List.length_nil, Nat.zero_add]
    rfl
  | cons p l ih =>
    intro done
    have hih := ih (done ++ [p])
    have hrep : List.replicate ((p :: l).length + k) (none : Option Ptr) =
        none :: List.replicate (l.length + k) none := by
      rw [List.length_cons, Nat.add_right_comm, List.replicate_succ]
    simp only [List.length_append, List.append_assoc] at hih
    rw [List.length_cons, copyLoop, load_append_cons, ok_bind, ← List.length_cons, hrep,
      store_append_cons, ok_bind, List.append_assoc]
    exact hih

/-! ## The constructors and the operations -/

/-- A capacity that is not negative makes the same empty heap. -/
theorem createInt_eq (memory : Nat → Option Ptr) (cap : Nat) :
    TimeHeap.createInt memory cap = .ok (some (TimeHeap.create cap)) := by
  rw [TimeHeap.createInt, if_neg (by omega), Int.toNat_natCast, clearLoop_newArray]
  rfl

/-- The constructor from an array is the same on `int` up to 2^30 timers. -/
theorem ofArrayInt_same (memory : Nat → Option Ptr) (s : Store) (initArray : List (Option Ptr))
    (capacity : Nat) :
    SameUnless (initArray.length ≤ 2 ^ 30) (TimeHeap.ofArrayInt memory s initArray capacity)
      (TimeHeap.ofArray s initArray capacity) := by
  unfold TimeHeap.ofArrayInt TimeHeap.ofArray
  by_cases hlt : capacity < initArray.length
  · rw [if_pos hlt, if_pos (by omega)]
    exact sameUnless_refl _ _
  · rw [if_neg hlt, if_neg (by omega), Int.toNat_natCast, clearLoop_newArray, ok_bind]
    by_cases hempty : initArray.length ≠ 0
    · have hcopy := copyLoop_append (capacity - initArray.length) initArray []
      rw [Nat.add_sub_cancel' (by omega)] at hcopy
      rw [if_pos hempty, if_pos hempty, show copyLoop initArray initArray.length 0
        (List.replicate capacity none) = _ from hcopy, ok_bind]
      refine (buildLoopInt_same _ _ ?_).bind fun h _ => sameUnless_refl _ _
      show (initArray.length - 1) / 2 + 1 ≤ initArray.length
      omega
    · rw [if_neg hempty, if_neg hempty]
      obtain rfl : initArray = [] := List.length_eq_zero_iff.mp (not_not.mp hempty)
      exact sameUnless_refl _ _

/-- `resize` is the same on `int` as long as twice the capacity is one. -/
theorem resizeInt_same (memory : Nat → Option Ptr) :
    SameUnless (((2 * h.capacity : Nat) : Int) ≤ intMax) (h.resizeInt memory s) (h.resize s) := by
  unfold TimeHeap.resizeInt
  apply sameUnless_intOf id
  rw [clearLoop_newArray, ok_bind]
  exact sameUnless_refl _ _

/-- `add_timer` is the same on `int` while the sizes of the heap fit. -/
theorem addTimerInt_same (memory : Nat → Option Ptr) (s : Store) (timer : Option Ptr) :
    SameUnless (IntsFit h) (h.addTimerInt memory s timer) (h.addTimer s timer) := by
  cases timer with
  | none => exact sameUnless_refl _ _
  | some p =>
    have hroom : SameUnless (IntsFit h) (h.makeRoomInt memory s) (h.makeRoom s) := by
      unfold TimeHeap.makeRoomInt TimeHeap.makeRoom
      by_cases hfull : h.curSize ≥ h.capacity
      · rw [if_pos hfull, if_pos hfull]
        refine (resizeInt_same memory).mono fun hfit => ?_
        exact hfit.double.resolve_left (by omega)
      · rw [if_neg hfull, if_neg hfull]
        exact sameUnless_refl _ _
    exact hroom.bind fun r _ => sameUnless_refl _ _

/-- `pop_timer` is the same on `int` up to 2^30 timers. -/
theorem popTimerInt_same (s : Store) :
    SameUnless (h.curSize ≤ 2 ^ 30) (h.popTimerInt s) (h.popTimer s) := by
  unfold TimeHeap.popTimerInt TimeHeap.popTimer
  cases h.empty with
  | true =>
    rw [if_pos rfl, if_pos rfl]
    exact sameUnless_refl _ _
  | false =>
    rw [if_neg (by simp), if_neg (by simp)]
    refine (sameUnless_refl _ _).bind fun first _ => ?_
    cases first with
    | none =>
      rw [if_neg (by simp), if_neg (by simp)]
      exact sameUnless_refl _ _
    | some p =>
      rw [if_pos Option.isSome_some, if_pos Option.isSome_some]
      refine (sameUnless_refl _ _).bind fun last _ => (sameUnless_refl _ _).bind fun array _ => ?_
      have hdown := percolateDownInt_same (s := s.delete (some p))
        (h := { h with array := array, curSize := h.curSize - 1 }) (Nat.zero_le _)
      have hle : h.curSize ≤ 2 ^ 30 → h.curSize - 1 ≤ 2 ^ 30 := Nat.le_trans (Nat.sub_le _ _)
      exact (hdown.mono hle).bind fun h' _ => sameUnless_refl _ _

end Ints

end ServerListings.Interface
