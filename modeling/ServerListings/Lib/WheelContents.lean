import Mathlib.Data.Fintype.Basic
import ServerListings.Lib.TimingWheel

/-!
# The entries of a timing wheel as one list

`contents` lists the payloads of all slots with their delays. On this list the operations of
the wheel are those of a plain timer queue: an insertion adds an entry, an advance takes out
the entries without delay and brings the others one advance nearer.
-/

set_option autoImplicit false

namespace Lib.TimingWheel

/-! ## Lists put together from slots -/

section Slots

variable {ι β : Type} {f g : ι → List β} {l : List ι} {i : ι} {b : β}

/-- One of the lists gets one more element. -/
theorem flatMap_cons_perm (hnodup : l.Nodup) (hi : i ∈ l) (hfi : f i = b :: g i)
    (hne : ∀ j ∈ l, j ≠ i → f j = g j) : (l.flatMap f).Perm (b :: l.flatMap g) := by
  induction l with
  | nil => cases hi
  | cons j l ih =>
    obtain ⟨hnot, hnodup⟩ := List.nodup_cons.mp hnodup
    rw [List.flatMap_cons, List.flatMap_cons]
    by_cases hj : j = i
    · subst hj
      have hrest : l.flatMap f = l.flatMap g := by
        apply List.flatMap_congr
        intro k hk
        apply hne k (List.mem_cons_of_mem _ hk)
        rintro rfl
        exact hnot hk
      rw [hfi, hrest]
      exact .refl _
    · have hmem : i ∈ l := (List.mem_cons.mp hi).resolve_left (Ne.symm hj)
      rw [hne j List.mem_cons_self hj]
      have hrest := ih hnodup hmem fun k hk => hne k (List.mem_cons_of_mem _ hk)
      exact (hrest.append_left (g j)).trans List.perm_middle

/-- Only one of the lists has elements. -/
theorem flatMap_eq_single (hnodup : l.Nodup) (hi : i ∈ l) (hne : ∀ j ∈ l, j ≠ i → f j = []) :
    l.flatMap f = f i := by
  induction l with
  | nil => cases hi
  | cons j l ih =>
    obtain ⟨hnot, hnodup⟩ := List.nodup_cons.mp hnodup
    rw [List.flatMap_cons]
    by_cases hj : j = i
    · subst hj
      have hrest : l.flatMap f = [] := by
        apply List.flatMap_eq_nil_iff.mpr
        intro k hk
        apply hne k (List.mem_cons_of_mem _ hk)
        rintro rfl
        exact hnot hk
      rw [hrest, List.append_nil]
    · have hmem : i ∈ l := (List.mem_cons.mp hi).resolve_left (Ne.symm hj)
      rw [hne j List.mem_cons_self hj, List.nil_append]
      exact ih hnodup hmem fun k hk => hne k (List.mem_cons_of_mem _ hk)

end Slots

section Contents

variable {N : Nat} {α κ : Type}

/-- The entries of a slot with their delays. -/
def delayed (cur i : Fin N) (l : List (α × Nat)) : List (α × Nat) :=
  l.map fun e => (e.1, delay cur i e.2)

/-- The payloads of all entries with their delays. -/
def Wheel.contents (w : Wheel N α) : List (α × Nat) :=
  (List.finRange N).flatMap fun i => delayed w.cur i (w.slots i)

/-- What the wheel contains is in a slot, with the delay of the slot. -/
theorem mem_contents {w : Wheel N α} {x : α} {n : Nat} :
    (x, n) ∈ w.contents ↔ ∃ i r, (x, r) ∈ w.slots i ∧ delay w.cur i r = n := by
  simp only [Wheel.contents, delayed, List.mem_flatMap, List.mem_map, List.mem_finRange, true_and,
    Prod.mk.injEq, Prod.exists]
  constructor
  · rintro ⟨i, y, r, hy, rfl, hn⟩
    exact ⟨i, r, hy, hn⟩
  · rintro ⟨i, r, hx, hn⟩
    exact ⟨i, x, r, hx, rfl, hn⟩

/-- The empty wheel contains nothing. -/
theorem contents_empty (cur : Fin N) : (empty cur : Wheel N α).contents = [] := by
  apply List.flatMap_eq_nil_iff.mpr
  intro i _
  rfl

/-- A wheel contains what was inserted, with its delay. -/
theorem contents_insert (w : Wheel N α) (x : α) (d : Nat) :
    (w.insert x d).contents.Perm ((x, d) :: w.contents) := by
  apply flatMap_cons_perm (List.nodup_finRange N) (List.mem_finRange (slotAfter w.cur d))
  · show delayed w.cur _ (Function.update w.slots _ _ _) = _
    rw [Function.update_self, delayed, List.map_cons, delay_slotAfter]
    rfl
  · intro j _ hj
    show delayed w.cur _ (Function.update w.slots _ _ _) = _
    rw [Function.update_of_ne hj]

/-- What is removed is not contained any more. -/
theorem contents_remove [DecidableEq κ] (key : α → κ) (w : Wheel N α) (k : κ) :
    (w.remove key k).contents = w.contents.filter fun e => key e.1 ≠ k := by
  unfold Wheel.contents delayed Wheel.remove
  rw [List.filter_flatMap]
  apply List.flatMap_congr
  intro i _
  rw [List.filter_map]
  rfl

/-- The entries that an advance leaves, one advance nearer. -/
def nearer (l : List (α × Nat)) : List (α × Nat) := (l.filter (0 < ·.2)).map fun e => (e.1, e.2 - 1)

/-- The entries of the current slot come nearer by a turn less one tick. -/
theorem delayed_turned (cur : Fin N) (l : List (α × Nat)) :
    delayed (slotAfter cur 1) cur (turned l) = nearer (delayed cur cur l) := by
  unfold nearer delayed turned
  rw [List.filter_map, List.map_map, List.map_map]
  have hfilter : l.filter ((0 < ·.2) ∘ fun e => (e.1, delay cur cur e.2)) = l.filter (0 < ·.2) := by
    apply List.filter_congr
    intro e _
    have hzero := delay_eq_zero_iff cur cur e.2
    rw [Function.comp_apply, decide_eq_decide]
    omega
  rw [hfilter]
  apply List.map_congr_left
  intro e he
  have hpos : 0 < e.2 := of_decide_eq_true (List.mem_filter.mp he).2
  have hadvance := delay_advance_self cur (e.2 - 1)
  rw [Nat.sub_add_cancel hpos] at hadvance
  simp only [Function.comp_apply, Prod.mk.injEq, true_and]
  omega

/-- The entries of the other slots come one tick nearer. -/
theorem delayed_kept {cur i : Fin N} (hi : i ≠ cur) (l : List (α × Nat)) :
    delayed (slotAfter cur 1) i l = nearer (delayed cur i l) := by
  unfold nearer delayed
  rw [List.filter_map, List.map_map]
  have hfilter : l.filter ((0 < ·.2) ∘ fun e => (e.1, delay cur i e.2)) = l := by
    apply List.filter_eq_self.mpr
    intro e _
    have hadvance := delay_advance_of_ne hi e.2
    rw [Function.comp_apply, decide_eq_true_eq]
    omega
  rw [hfilter]
  apply List.map_congr_left
  intro e _
  have hadvance := delay_advance_of_ne hi e.2
  simp only [Function.comp_apply, Prod.mk.injEq, true_and]
  omega

/-- A tick brings all contents one tick nearer. -/
theorem contents_advance (w : Wheel N α) : w.advance.contents = nearer w.contents := by
  unfold Wheel.contents
  rw [nearer, List.filter_flatMap, List.map_flatMap]
  apply List.flatMap_congr
  intro i _
  show delayed (slotAfter w.cur 1) i (Function.update w.slots w.cur _ i) = nearer (delayed w.cur i _)
  by_cases hi : i = w.cur
  · subst hi
    rw [Function.update_self, delayed_turned]
  · rw [Function.update_of_ne hi, delayed_kept hi]

/-- An advance finds the entries without delay expired. -/
theorem fired_eq (w : Wheel N α) :
    w.fired = (w.contents.filter (·.2 = 0)).map Prod.fst := by
  have hzero : ∀ i r, delay w.cur i r = 0 ↔ i = w.cur ∧ r = 0 := delay_eq_zero_iff w.cur
  unfold Wheel.contents
  rw [List.filter_flatMap, flatMap_eq_single (List.nodup_finRange N) (List.mem_finRange w.cur)]
  · unfold Wheel.fired expired delayed
    rw [List.filter_map, List.map_map]
    have hfilter : (w.slots w.cur).filter ((·.2 = 0) ∘ fun e => (e.1, delay w.cur w.cur e.2)) =
        (w.slots w.cur).filter (·.2 = 0) := by
      apply List.filter_congr
      intro e _
      rw [Function.comp_apply, decide_eq_decide, hzero]
      simp only [true_and]
    rw [hfilter]
    rfl
  · intro i _ hi
    apply List.filter_eq_nil_iff.mpr
    intro e he
    obtain ⟨x, -, rfl⟩ := List.mem_map.mp he
    simp only [decide_eq_true_eq, hzero, hi, false_and, not_false_eq_true]

end Contents

end Lib.TimingWheel
