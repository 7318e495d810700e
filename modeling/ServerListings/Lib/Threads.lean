import Mathlib.Data.Finset.Card
import Mathlib.Data.Fintype.Basic

/-!
# Threads and their program counters

A system of threads is given by the place `pc t` of every thread `t`. A step moves one thread.
The rules say what a move does to the two kinds of facts that speak about all threads at once:
that a mutex belongs to the one thread inside a critical section, and how many threads are at
certain places.
-/

set_option autoImplicit false

namespace Lib.Threads

variable {T α : Type} {pc : T → α} {owner : Option T} {inside : α → Prop} {t u : T} {v : α}

/-! ## Mutual exclusion -/

/-- The mutex belongs to the thread that is inside, if there is one. -/
def Exclusive (inside : α → Prop) (owner : Option T) (pc : T → α) : Prop :=
  ∀ t, owner = some t ↔ inside (pc t)

/-- When nobody is inside, the mutex is free. -/
theorem Exclusive.free (h : Exclusive inside owner pc) (hnone : ∀ t, ¬ inside (pc t)) :
    owner = none := by
  cases howner : owner with
  | none => rfl
  | some t => exact absurd ((h t).mp howner) (hnone t)

section Moves

variable [DecidableEq T]

/-- A thread stays on its side. -/
theorem Exclusive.move (h : Exclusive inside owner pc) (hv : inside v ↔ inside (pc t)) :
    Exclusive inside owner (Function.update pc t v) := by
  intro u
  by_cases hu : u = t
  · rw [hu, Function.update_self, hv]
    exact h t
  · rw [Function.update_of_ne hu]
    exact h u

/-- The thread that gets the lock is the one inside. -/
theorem Exclusive.acquire (h : Exclusive inside none pc) (hv : inside v) :
    Exclusive inside (some t) (Function.update pc t v) := by
  intro u
  by_cases hu : u = t
  · rw [hu, Function.update_self]
    exact ⟨fun _ => hv, fun _ => rfl⟩
  · rw [Function.update_of_ne hu]
    constructor
    · intro heq
      exact absurd (Option.some.inj heq).symm hu
    · intro hin
      cases (h u).mpr hin

/-- The thread that gives the lock back is not inside any more. -/
theorem Exclusive.release (h : Exclusive inside (some t) pc) (hv : ¬ inside v) :
    Exclusive inside none (Function.update pc t v) := by
  intro u
  by_cases hu : u = t
  · rw [hu, Function.update_self]
    constructor
    · intro heq
      cases heq
    · intro hin
      exact absurd hin hv
  · rw [Function.update_of_ne hu]
    constructor
    · intro heq
      cases heq
    · intro hin
      exact absurd (Option.some.inj ((h u).mpr hin)).symm hu

end Moves

/-! ## Counting threads -/

section Census

variable [Fintype T] {p : α → Bool}

/-- The number of threads at a place that meets `p`. -/
def census (p : α → Bool) (pc : T → α) : Nat :=
  (Finset.univ.filter fun t => p (pc t) = true).card

/-- Nobody is counted when nobody has the property. -/
theorem census_eq_zero : census p pc = 0 ↔ ∀ t, p (pc t) = false := by
  rw [census, Finset.card_eq_zero, Finset.filter_eq_empty_iff]
  simp

/-- Somebody is counted when one thread has the property. -/
theorem census_pos (ht : p (pc t) = true) : 0 < census p pc :=
  Finset.card_pos.mpr ⟨t, Finset.mem_filter.mpr ⟨Finset.mem_univ t, ht⟩⟩

variable [DecidableEq T]

/-- A thread is counted beside the other ones. -/
theorem census_split (p : α → Bool) (pc : T → α) (t : T) :
    census p pc = (p (pc t)).toNat +
      ((Finset.univ.erase t).filter fun u => p (pc u) = true).card := by
  have hall : (Finset.univ : Finset T) = insert t (Finset.univ.erase t) :=
    (Finset.insert_erase (Finset.mem_univ t)).symm
  rw [census]
  conv_lhs => rw [hall]
  rw [Finset.filter_insert]
  cases ht : p (pc t) with
  | false => simp
  | true =>
    rw [if_pos rfl, Finset.card_insert_of_notMem]
    · exact Nat.add_comm ..
    · simp

/-- A move takes a thread from its old place to the new one. -/
theorem census_update (p : α → Bool) (pc : T → α) (t : T) (v : α) :
    census p (Function.update pc t v) + (p (pc t)).toNat = census p pc + (p v).toNat := by
  have hrest : ((Finset.univ.erase t).filter fun u => p (Function.update pc t v u) = true) =
      (Finset.univ.erase t).filter fun u => p (pc u) = true := by
    apply Finset.filter_congr
    intro u hu
    rw [Function.update_of_ne (Finset.ne_of_mem_erase hu)]
  rw [census_split p _ t, census_split p pc t, hrest, Function.update_self]
  omega

/-- A thread that keeps the property is counted as before. -/
theorem census_update_same (h : p v = p (pc t)) :
    census p (Function.update pc t v) = census p pc := by
  have hmove := census_update p pc t v
  rw [h] at hmove
  exact Nat.add_right_cancel hmove

/-- A thread that gets the property is counted once more. -/
theorem census_gain (hout : p (pc t) = false) (hin : p v = true) :
    census p (Function.update pc t v) = census p pc + 1 := by
  have hmove := census_update p pc t v
  rw [hout, hin] at hmove
  exact hmove

/-- A thread that loses the property is counted no more. -/
theorem census_loss (hin : p (pc t) = true) (hout : p v = false) :
    census p (Function.update pc t v) + 1 = census p pc := by
  have hmove := census_update p pc t v
  rw [hin, hout] at hmove
  exact hmove

end Census

end Lib.Threads
