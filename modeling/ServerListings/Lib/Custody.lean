import Mathlib.Logic.Function.Basic

/-!
# Custody

Keys are kept at places. `Placed rel owner` says that the relation "key `k` is at place `p`"
is given by a function: every key has at most one place. The rules say how the function
changes when a key leaves its place, comes to a place, or when several keys move at once. Each
asks only how the relation changes, so a program may keep the places in any data structures.
-/

set_option autoImplicit false

namespace Lib.Custody

variable {κ π : Type} {rel rel' : κ → π → Prop} {owner : κ → Option π} {k : κ} {p q : π}

/-- The place of each key, if it has one. -/
def Placed (rel : κ → π → Prop) (owner : κ → Option π) : Prop := ∀ k p, rel k p ↔ owner k = some p

/-- A token is at one place. -/
theorem Placed.unique (h : Placed rel owner) (hp : rel k p) (hq : rel k q) : p = q :=
  Option.some.inj (((h k p).mp hp).symm.trans ((h k q).mp hq))

/-- A token that is nowhere has no owner. -/
theorem Placed.eq_none (h : Placed rel owner) (hk : ∀ p, ¬ rel k p) : owner k = none := by
  cases ho : owner k with
  | none => rfl
  | some p => exact absurd ((h k p).mpr ho) (hk p)

/-- A token without owner is nowhere. -/
theorem Placed.not_rel (h : Placed rel owner) (ho : owner k = none) (p : π) : ¬ rel k p := by
  intro hp
  rw [(h k p).mp hp] at ho
  cases ho

/-- A change that concerns no place. -/
theorem Placed.congr (h : Placed rel owner) (heq : ∀ k p, rel' k p ↔ rel k p) :
    Placed rel' owner :=
  fun k p => (heq k p).trans (h k p)

section Moves

variable [DecidableEq κ]

/-- A key leaves its place, if it has one. -/
theorem Placed.release (h : Placed rel owner) (hsub : ∀ x q, rel' x q → rel x q)
    (hgone : ∀ q, ¬ rel' k q) (hkeep : ∀ x q, x ≠ k → rel x q → rel' x q) :
    Placed rel' (Function.update owner k none) := by
  intro x q
  by_cases hx : x = k
  · rw [hx, Function.update_self]
    exact ⟨fun hq => absurd hq (hgone q), fun hq => by cases hq⟩
  · rw [Function.update_of_ne hx, ← h x q]
    exact ⟨hsub x q, hkeep x q hx⟩

/-- A key that has no place comes to one. -/
theorem Placed.assign (h : Placed rel owner) (hnone : owner k = none)
    (hrel : ∀ x q, rel' x q ↔ rel x q ∨ (x = k ∧ q = p)) :
    Placed rel' (Function.update owner k (some p)) := by
  intro x q
  rw [hrel]
  by_cases hx : x = k
  · rw [hx, Function.update_self]
    constructor
    · rintro (hq | ⟨-, rfl⟩)
      · exact absurd hq (h.not_rel hnone q)
      · rfl
    · intro hq
      exact Or.inr ⟨rfl, (Option.some.inj hq).symm⟩
  · rw [Function.update_of_ne hx, ← h x q]
    constructor
    · rintro (hq | ⟨heq, -⟩)
      · exact hq
      · exact absurd heq hx
    · exact Or.inl

/-- A key comes to a place or to none, whatever its place was. -/
theorem Placed.put (h : Placed rel owner) (o : Option π)
    (hrel : ∀ x q, rel' x q ↔ (x ≠ k ∧ rel x q) ∨ (x = k ∧ o = some q)) :
    Placed rel' (Function.update owner k o) := by
  intro x q
  rw [hrel]
  by_cases hx : x = k
  · rw [hx, Function.update_self]
    simp
  · rw [Function.update_of_ne hx, ← h x q]
    simp [hx]

end Moves

/-- The keys of a set come to one place at once. -/
theorem Placed.gather (h : Placed rel owner) (moved : κ → Prop) [DecidablePred moved] (p : π)
    (hmoved : ∀ x q, moved x → (rel' x q ↔ q = p)) (hkeep : ∀ x q, ¬ moved x → (rel' x q ↔ rel x q)) :
    Placed rel' (fun x => if moved x then some p else owner x) := by
  intro x q
  by_cases hx : moved x
  · simp only [if_pos hx, hmoved x q hx, Option.some_inj]
    exact eq_comm
  · simp only [if_neg hx, hkeep x q hx, h x q]

end Lib.Custody
