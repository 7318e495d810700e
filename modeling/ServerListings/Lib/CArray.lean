import ServerListings.Lib.CMem

/-!
# Arrays with a fixed number of elements

An array of `n` elements, with subscripts that are numbers of a signed type. A subscript outside
the array is a fault.
-/

set_option autoImplicit false

namespace Lib.CMem

/-- An array of `n` elements. Only those up to `n` can be reached. -/
@[ext] structure CArray (α : Type) (n : Nat) where
  elem : Nat → α

namespace CArray

variable {α : Type} {n : Nat}

def get (a : CArray α n) (i : Int) : Checked α :=
  if 0 ≤ i ∧ i < n then .ok (a.elem i.toNat) else .error .outOfBounds

def set (a : CArray α n) (i : Int) (v : α) : Checked (CArray α n) :=
  if 0 ≤ i ∧ i < n then .ok ⟨Function.update a.elem i.toNat v⟩ else .error .outOfBounds

/-- Reading in bounds gives the element. -/
theorem get_of_lt (a : CArray α n) {i : Nat} (h : i < n) : a.get i = .ok (a.elem i) := by
  rw [get, if_pos ⟨Int.natCast_nonneg i, Int.ofNat_lt.mpr h⟩, Int.toNat_natCast]

/-- Writing in bounds sets the element. -/
theorem set_of_lt (a : CArray α n) {i : Nat} (v : α) (h : i < n) :
    a.set i v = .ok ⟨Function.update a.elem i v⟩ := by
  rw [set, if_pos ⟨Int.natCast_nonneg i, Int.ofNat_lt.mpr h⟩, Int.toNat_natCast]

/-- An element that was assigned is read back, the others are as before. -/
theorem exists_set (a : CArray α n) {i : Int} (v : α) (h : 0 ≤ i ∧ i < n) :
    ∃ a', a.set i v = .ok a' ∧ a'.get i = .ok v ∧ ∀ j, j ≠ i → a'.get j = a.get j := by
  refine ⟨_, if_pos h, ?_, ?_⟩
  · rw [get, if_pos h]
    exact congrArg Except.ok (Function.update_self ..)
  · intro j hj
    by_cases hrange : 0 ≤ j ∧ j < n
    · have hne : j.toNat ≠ i.toNat := by omega
      rw [get, if_pos hrange, get, if_pos hrange]
      exact congrArg Except.ok (Function.update_of_ne hne ..)
    · rw [get, if_neg hrange, get, if_neg hrange]

end CArray

end Lib.CMem
