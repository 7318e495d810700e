import Mathlib.Data.List.Perm.Basic
import Mathlib.Data.List.Range
import Mathlib.Logic.Function.Basic

/-!
# Dense tables with an index

A table keeps its entries at the positions below a count, and a second table gives the position
of the entry of each key. An entry is added at the end. An entry is removed by moving the last
one into its place and correcting the position of what was moved; this is also right when the
removed entry is the last one itself.
-/

set_option autoImplicit false

namespace Lib.DenseTable

variable {α κ : Type} {key : α → κ} {entry entry' : Nat → α} {n i j : Nat} {pos : κ → Int}

/-- The second table gives the positions of the entries. -/
def Indexed (key : α → κ) (entry : Nat → α) (n : Nat) (pos : κ → Int) : Prop :=
  ∀ i, i < n → pos (key (entry i)) = i

/-- The key is that of an entry. -/
def Present (key : α → κ) (entry : Nat → α) (n : Nat) (k : κ) : Prop :=
  ∃ i, i < n ∧ key (entry i) = k

/-- The entries in their order. -/
def entries (entry : Nat → α) (n : Nat) : List α := (List.range n).map entry

/-- Different entries have different keys. -/
theorem Indexed.key_injective (h : Indexed key entry n pos) (hi : i < n) (hj : j < n)
    (heq : key (entry i) = key (entry j)) : i = j := by
  have hpos := h i hi
  rw [heq, h j hj] at hpos
  exact (Int.ofNat_inj.mp hpos).symm

/-- An empty table is indexed. -/
theorem indexed_zero : Indexed key entry 0 pos := fun i hi => absurd hi (Nat.not_lt_zero i)

/-- No key is in an empty table. -/
theorem not_present_zero (k : κ) : ¬ Present key entry 0 k := fun ⟨i, hi, _⟩ => Nat.not_lt_zero i hi

/-- Only the entries below the count matter. -/
theorem Indexed.congr (h : Indexed key entry n pos) (heq : ∀ i, i < n → key (entry' i) = key (entry i)) :
    Indexed key entry' n pos := by
  intro i hi
  rw [heq i hi]
  exact h i hi

/-- The keys depend on the entries that are in use. -/
theorem present_congr (heq : ∀ i, i < n → key (entry' i) = key (entry i)) (k : κ) :
    Present key entry' n k ↔ Present key entry n k := by
  constructor
  · rintro ⟨i, hi, hk⟩
    exact ⟨i, hi, (heq i hi).symm.trans hk⟩
  · rintro ⟨i, hi, hk⟩
    exact ⟨i, hi, (heq i hi).trans hk⟩

section Updates

variable [DecidableEq κ]

/-- An entry of a new key is added at the end. -/
theorem Indexed.push (h : Indexed key entry n pos) (hnew : ¬ Present key entry n (key (entry n))) :
    Indexed key entry (n + 1) (Function.update pos (key (entry n)) n) := by
  intro i hi
  rcases Nat.lt_succ_iff_lt_or_eq.mp hi with hlt | rfl
  · rw [Function.update_of_ne]
    · exact h i hlt
    · exact fun heq => hnew ⟨i, hlt, heq⟩
  · exact Function.update_self ..

omit [DecidableEq κ] in
/-- The key of a new entry is there. -/
theorem present_push (k : κ) :
    Present key entry (n + 1) k ↔ Present key entry n k ∨ k = key (entry n) := by
  constructor
  · rintro ⟨i, hi, hk⟩
    rcases Nat.lt_succ_iff_lt_or_eq.mp hi with hlt | rfl
    · exact Or.inl ⟨i, hlt, hk⟩
    · exact Or.inr hk.symm
  · rintro (⟨i, hi, hk⟩ | rfl)
    · exact ⟨i, Nat.lt_succ_of_lt hi, hk⟩
    · exact ⟨n, Nat.lt_succ_self n, rfl⟩

/-- The last entry is moved to position `i`, and its position is corrected. What the second table
says of the removed key before is of no importance. -/
theorem Indexed.swapRemove (h : Indexed key entry (n + 1) pos) (hi : i < n + 1) (v : Int) :
    Indexed key (Function.update entry i (entry n)) n
      (Function.update (Function.update pos (key (entry i)) v) (key (entry n)) i) := by
  intro j hj
  by_cases hji : j = i
  · subst hji
    rw [Function.update_self, Function.update_self]
  · have hlast : key (entry j) ≠ key (entry n) := by
      intro heq
      exact Nat.ne_of_lt hj (h.key_injective (Nat.lt_succ_of_lt hj) (Nat.lt_succ_self n) heq)
    have hgone : key (entry j) ≠ key (entry i) := by
      intro heq
      exact hji (h.key_injective (Nat.lt_succ_of_lt hj) hi heq)
    rw [Function.update_of_ne hji, Function.update_of_ne hlast, Function.update_of_ne hgone]
    exact h j (Nat.lt_succ_of_lt hj)

omit [DecidableEq κ] in
/-- Only the key of the removed entry is gone. -/
theorem Indexed.present_swapRemove (h : Indexed key entry (n + 1) pos) (hi : i < n + 1) (k : κ) :
    Present key (Function.update entry i (entry n)) n k ↔
      Present key entry (n + 1) k ∧ k ≠ key (entry i) := by
  constructor
  · rintro ⟨j, hj, rfl⟩
    by_cases hji : j = i
    · subst hji
      rw [Function.update_self]
      refine ⟨⟨n, Nat.lt_succ_self n, rfl⟩, fun heq => ?_⟩
      exact Nat.ne_of_lt hj (h.key_injective (Nat.lt_succ_self n) hi heq).symm
    · rw [Function.update_of_ne hji]
      refine ⟨⟨j, Nat.lt_succ_of_lt hj, rfl⟩, fun heq => ?_⟩
      exact hji (h.key_injective (Nat.lt_succ_of_lt hj) hi heq)
  · rintro ⟨⟨j, hj, rfl⟩, hne⟩
    have hji : j ≠ i := fun heq => hne (heq ▸ rfl)
    rcases Nat.lt_succ_iff_lt_or_eq.mp hj with hlt | rfl
    · refine ⟨j, hlt, ?_⟩
      rw [Function.update_of_ne hji]
    · have hin : i < j := Nat.lt_of_le_of_ne (Nat.le_of_lt_succ hi) (Ne.symm hji)
      refine ⟨i, hin, ?_⟩
      rw [Function.update_self]

end Updates

/-- One more entry is in use. -/
theorem entries_succ (entry : Nat → α) (n : Nat) :
    entries entry (n + 1) = entries entry n ++ [entry n] := by
  unfold entries
  rw [List.range_succ, List.map_append, List.map_singleton]

/-- The entries up to a position, and behind it. -/
theorem entries_update (entry : Nat → α) (x : α) (hi : i < n) :
    ∃ a b, entries entry n = a ++ entry i :: b ∧
      entries (Function.update entry i x) n = a ++ x :: b := by
  induction n with
  | zero => exact absurd hi (Nat.not_lt_zero i)
  | succ n ih =>
    rw [entries_succ, entries_succ]
    rcases Nat.lt_succ_iff_lt_or_eq.mp hi with hlt | rfl
    · obtain ⟨a, b, ha, hb⟩ := ih hlt
      refine ⟨a, b ++ [entry n], ?_, ?_⟩
      · rw [ha, List.append_assoc, List.cons_append]
      · rw [hb, Function.update_of_ne (Nat.ne_of_gt hlt), List.append_assoc, List.cons_append]
    · refine ⟨entries entry i, [], rfl, ?_⟩
      rw [Function.update_self]
      congr 1
      apply List.map_congr_left
      intro j hj
      exact Function.update_of_ne (Nat.ne_of_lt (List.mem_range.mp hj)) ..

/-- The other entries all stay. -/
theorem entries_swapRemove (entry : Nat → α) (hi : i < n + 1) :
    (entry i :: entries (Function.update entry i (entry n)) n).Perm (entries entry (n + 1)) := by
  rw [entries_succ]
  rcases Nat.lt_succ_iff_lt_or_eq.mp hi with hlt | rfl
  · obtain ⟨a, b, ha, hb⟩ := entries_update entry (entry n) hlt
    rw [ha, hb]
    calc List.Perm (entry i :: (a ++ entry n :: b)) (entry i :: entry n :: (a ++ b)) :=
          List.perm_middle.cons _
      List.Perm _ (entry n :: entry i :: (a ++ b)) := List.Perm.swap ..
      List.Perm _ (entry n :: (a ++ entry i :: b)) := List.perm_middle.symm.cons _
      List.Perm _ (a ++ entry i :: b ++ [entry n]) := (List.perm_append_singleton ..).symm
  · rw [Function.update_eq_self]
    exact (List.perm_append_singleton ..).symm

/-! ## A table that is a list -/

/-- An entry is removed by moving the last one into its place. -/
theorem perm_eraseIdx {l : List α} {last : α} (hlast : l.getLast? = some last) (hi : i < l.length) :
    (l.set i last).dropLast.Perm (l.eraseIdx i) := by
  obtain ⟨front, rfl⟩ := List.getLast?_eq_some_iff.mp hlast
  rw [List.length_append, List.length_singleton] at hi
  by_cases hlt : i < front.length
  · rw [List.set_append_left i last hlt, List.dropLast_concat, List.eraseIdx_append_of_lt_length hlt]
    exact (List.set_perm_cons_eraseIdx hlt last).trans (List.perm_append_singleton last _).symm
  · obtain rfl : i = front.length := by omega
    rw [List.set_append_right _ last (Nat.le_refl _), List.eraseIdx_append_of_length_le (Nat.le_refl _)]
    simp

/-- What is in front of the removed entry stays, and what is behind it is only moved. -/
theorem swapRemove_split {l : List α} {last : α} (hlast : l.getLast? = some last) (hi : i < l.length) :
    (l.set i last).dropLast.take i = l.take i ∧
      ((l.set i last).dropLast.drop i).Perm (l.drop (i + 1)) := by
  have hperm := perm_eraseIdx hlast hi
  have hle : i ≤ (l.set i last).dropLast.length := by
    rw [List.length_dropLast, List.length_set]
    omega
  have htake : (l.set i last).dropLast.take i = l.take i := by
    rw [List.dropLast_eq_take, List.take_take, List.length_set, Nat.min_eq_left (by omega),
      List.take_set_of_le (Nat.le_refl i)]
  refine ⟨htake, ?_⟩
  rw [← List.take_append_drop i (l.set i last).dropLast, htake, List.eraseIdx_eq_take_drop_succ] at hperm
  exact (List.perm_append_left_iff _).mp hperm

/-! ## A pass over a table that changes

The pass looks at the entry at its position. Then it goes on to the next position, and an entry
may have been added at the end, or it removes the entry and looks at the same position again. -/

/-- A pass that began with the table `l₀` is at position `i` of the table `l`: it has looked at
`visited`, has removed `removed` and has added `pushed`. -/
structure Passing (l₀ l : List α) (i : Nat) (visited removed pushed : List α) : Prop where
  bound : i ≤ l.length
  visited : (visited ++ l.drop i).Perm (l₀ ++ pushed)
  table : (l ++ removed).Perm (l₀ ++ pushed)

section Passing

variable {l₀ l visited removed pushed : List α} {x y last : α}

/-- A pass begins at the first entry. -/
theorem passing_start (l : List α) : Passing l l 0 [] [] [] := by
  refine ⟨Nat.zero_le _, ?_, List.Perm.refl _⟩
  rw [List.append_nil]
  exact List.Perm.refl _

/-- An entry is visited and stays. -/
theorem Passing.next (h : Passing l₀ l i visited removed pushed) (hi : l[i]? = some x) :
    Passing l₀ l (i + 1) (visited ++ [x]) removed pushed := by
  obtain ⟨hlt, hx⟩ := List.getElem?_eq_some_iff.mp hi
  refine ⟨hlt, ?_, h.table⟩
  rw [List.append_assoc, List.singleton_append, ← hx, ← List.drop_eq_getElem_cons hlt]
  exact h.visited

/-- An entry is added behind the last one. -/
theorem Passing.push (h : Passing l₀ l i visited removed pushed) (hi : i ≤ l.length) (y : α) :
    Passing l₀ (l ++ [y]) i visited removed (pushed ++ [y]) := by
  refine ⟨?_, ?_, ?_⟩
  · rw [List.length_append]
    omega
  · rw [List.drop_append_of_le_length hi, ← List.append_assoc, ← List.append_assoc]
    exact h.visited.append_right [y]
  · rw [← List.append_assoc]
    calc List.Perm (l ++ [y] ++ removed) (l ++ removed ++ [y]) := by
          rw [List.append_assoc, List.append_assoc]
          exact List.perm_append_comm.append_left l
      List.Perm _ (l₀ ++ pushed ++ [y]) := h.table.append_right [y]

/-- The entry that is visited is removed, and the last one takes its place. -/
theorem Passing.remove (h : Passing l₀ l i visited removed pushed) (hi : l[i]? = some x)
    (hlast : l.getLast? = some last) :
    Passing l₀ (l.set i last).dropLast i (visited ++ [x]) (removed ++ [x]) pushed := by
  obtain ⟨hlt, hx⟩ := List.getElem?_eq_some_iff.mp hi
  obtain ⟨-, hdrop⟩ := swapRemove_split hlast hlt
  refine ⟨?_, ?_, ?_⟩
  · rw [List.length_dropLast, List.length_set]
    omega
  · exact (hdrop.append_left _).trans (h.next hi).visited
  · have hperm := perm_eraseIdx hlast hlt
    calc List.Perm ((l.set i last).dropLast ++ (removed ++ [x])) (l.eraseIdx i ++ (removed ++ [x])) :=
          hperm.append_right _
      List.Perm _ (x :: (l.eraseIdx i ++ removed)) := by
          rw [← List.append_assoc]
          exact List.perm_append_singleton x _
      List.Perm _ (l ++ removed) := by
          rw [← hx]
          exact (List.getElem_cons_eraseIdx_perm hlt).append_right removed
      List.Perm _ (l₀ ++ pushed) := h.table

/-- At the end of the table, everything was looked at once. -/
theorem Passing.complete (h : Passing l₀ l i visited removed pushed) (hi : l.length ≤ i) :
    visited.Perm (l₀ ++ pushed) := by
  have hvisited := h.visited
  rwa [List.drop_eq_nil_of_le hi, List.append_nil] at hvisited

/-- How far the pass is from its end. -/
theorem Passing.length_visited (h : Passing l₀ l i visited removed pushed) :
    visited.length + (l.length - i) = l₀.length + pushed.length := by
  have hlen := h.visited.length_eq
  rwa [List.length_append, List.length_append, List.length_drop] at hlen

end Passing

end Lib.DenseTable
