import Mathlib.Data.Fintype.Basic
import Mathlib.Data.List.Nodup
import Mathlib.Logic.Function.Basic

/-!
# Edge-triggered readiness

A source that becomes readable raises its edge. The edges are returned in a batch, which clears
them, and the batch is handled one source after the other. `pending` counts how often a source
is going to be handled for what has happened so far: a reader that takes one message each time
gets to all messages of a source only if their number is at most that.
-/

set_option autoImplicit false

namespace Lib.EdgeTriggered

section Sources

variable {α : Type} [DecidableEq α] {edge : α → Bool} {batch : List α} {x y : α}

/-- A batch of the sources whose edge is raised, in any order. -/
def Returned {α : Type} (edge : α → Bool) (batch : List α) : Prop :=
  batch ≠ [] ∧ batch.Nodup ∧ ∀ x, x ∈ batch ↔ edge x = true

instance [Fintype α] : Decidable (Returned edge batch) := inferInstanceAs (Decidable (_ ∧ _ ∧ _))

/-- How often the source is going to be handled. -/
def pending (edge : α → Bool) (batch : List α) (x : α) : Nat :=
  (if edge x = true then 1 else 0) + batch.count x

/-- Returning all raised edges changes no count. -/
theorem pending_returned (h : Returned edge batch) (x : α) :
    pending (fun _ => false) batch x = pending edge [] x := by
  unfold pending
  by_cases hx : edge x = true
  · rw [List.count_eq_one_of_mem h.2.1 ((h.2.2 x).mpr hx)]
    simp [hx]
  · rw [List.count_eq_zero.mpr fun hmem => hx ((h.2.2 x).mp hmem)]
    simp [hx]

/-- A new edge is one more event. -/
theorem pending_raise_self (hx : edge x = false) :
    pending (Function.update edge x true) batch x = pending edge batch x + 1 := by
  simp only [pending, Function.update_self, hx]
  simp
  omega

/-- An edge that is raised already stands for what comes after it too. -/
theorem pending_raise_raised (hx : edge x = true) :
    pending (Function.update edge x true) batch x = pending edge batch x := by
  rw [← hx, Function.update_eq_self]

/-- An edge of another is no event here. -/
theorem pending_raise_of_ne (hne : x ≠ y) :
    pending (Function.update edge y true) batch x = pending edge batch x := by
  rw [pending, Function.update_of_ne hne, pending]

/-- Handling an event leaves one fewer. -/
theorem pending_handled (h : batch.head? = some x) :
    pending edge batch x = pending edge batch.tail x + 1 := by
  cases batch with
  | nil => cases h
  | cons z batch =>
    obtain rfl := Option.some.inj h
    rw [pending, List.count_cons_self, List.tail_cons, pending, Nat.add_assoc]

/-- Handling an event of another leaves as many. -/
theorem pending_handled_of_ne (h : batch.head? = some y) (hne : x ≠ y) :
    pending edge batch x = pending edge batch.tail x := by
  cases batch with
  | nil => cases h
  | cons z batch =>
    obtain rfl := Option.some.inj h
    rw [pending, List.count_cons_of_ne hne.symm, List.tail_cons, pending]

/-! ## Batches of some of the sources -/

/-- A batch of sources whose edge is raised, not necessarily all of them. -/
def Fetched {α : Type} (edge : α → Bool) (batch : List α) : Prop :=
  batch ≠ [] ∧ batch.Nodup ∧ ∀ x ∈ batch, edge x = true

instance : Decidable (Fetched edge batch) := inferInstanceAs (Decidable (_ ∧ _ ∧ _))

/-- The edges that a batch leaves raised. -/
def remaining (edge : α → Bool) (batch : List α) (x : α) : Bool := edge x && decide (x ∉ batch)

/-- Returning some of the raised edges changes no count. -/
theorem pending_fetched (h : Fetched edge batch) (x : α) :
    pending (remaining edge batch) batch x = pending edge [] x := by
  unfold pending remaining
  by_cases hx : x ∈ batch
  · rw [List.count_eq_one_of_mem h.2.1 hx]
    simp [hx, h.2.2 x hx]
  · rw [List.count_eq_zero.mpr hx]
    simp [hx]

omit [DecidableEq α] in
/-- If an edge is raised, there is a batch to return. -/
theorem exists_returned {sources : List α} (hnodup : sources.Nodup)
    (hall : ∀ x, edge x = true → x ∈ sources) (hx : edge x = true) : ∃ batch, Returned edge batch := by
  refine ⟨sources.filter fun y => edge y, ?_, hnodup.filter _, ?_⟩
  · exact List.ne_nil_of_mem (List.mem_filter.mpr ⟨hall x hx, hx⟩)
  · intro y
    rw [List.mem_filter]
    exact ⟨And.right, fun hy => ⟨hall y hy, hy⟩⟩

end Sources

end Lib.EdgeTriggered
