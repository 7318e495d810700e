import Mathlib.Data.List.Basic

/-!
# Values that are passed through a shared register

A writer stores values in a register and announces each of them; the readers get the
announcements and read the register only when they handle one. The announcement does not carry
the value. The register is cleared before a value is stored. The rule is that the readers get
the values that were written, in their order, if the register is cleared only while no
announcement is under way.
-/

set_option autoImplicit false

namespace Lib.SharedRegister

variable {α : Type}

/-- A register with what was written to it and what a reader got from it. `inFlight` counts the
announcements that the reader has not handled, `unsealed` says that the register was cleared
for a value that has not been stored. -/
structure Register (α : Type) where
  written : List α
  delivered : List α
  inFlight : Nat
  content : α
  unsealed : Bool

/-- The steps of a writer that clears the register only while nothing is under way, and of a
reader. -/
inductive Step (r : Register α) : Register α → Prop where
  | idle : Step r r
  | clear (v : α) (hfree : r.inFlight = 0) : Step r { r with content := v, unsealed := true }
  | store (v : α) (hopen : r.unsealed = true) :
      Step r { r with
        written := r.written ++ [v], inFlight := r.inFlight + 1, content := v, unsealed := false }
  | giveUp : Step r { r with unsealed := false }
  | deliver (n : Nat) (hn : r.inFlight = n + 1) :
      Step r { r with delivered := r.delivered ++ [r.content], inFlight := n }

/-- Every value that was written has been read. -/
structure Settled (r : Register α) : Prop where
  free : r.inFlight = 0
  same : r.delivered = r.written

/-- The last value that was written is in the register and waits for the reader. -/
structure Pending (r : Register α) : Prop where
  one : r.inFlight = 1
  sealed : r.unsealed = false
  last : r.written = r.delivered ++ [r.content]

/-- The register holds at most one value that has not been read. -/
def Faithful (r : Register α) : Prop := Settled r ∨ Pending r

variable {r r' r'' : Register α}

/-- A step to a register that is the same. -/
theorem Step.to (h : Step r r') (heq : r'' = r') : Step r r'' := heq ▸ h

/-- Where nothing is in flight or unsealed the register is settled. -/
theorem Faithful.settled (h : Faithful r) (hopen : r.unsealed = true ∨ r.inFlight = 0) :
    Settled r := by
  rcases h with h | h
  · exact h
  · rcases hopen with hopen | hfree
    · rw [h.sealed] at hopen
      cases hopen
    · rw [h.one] at hfree
      cases hfree

/-- A step keeps the register faithful. -/
theorem Faithful.step (h : Faithful r) (hstep : Step r r') : Faithful r' := by
  cases hstep with
  | idle => exact h
  | clear v hfree =>
    have hset := h.settled (Or.inr hfree)
    exact Or.inl ⟨hset.free, hset.same⟩
  | store v hopen =>
    have hset := h.settled (Or.inl hopen)
    refine Or.inr ⟨?_, rfl, ?_⟩
    · simp only [hset.free]
    · simp only [hset.same]
  | giveUp =>
    rcases h with h | h
    · exact Or.inl ⟨h.free, h.same⟩
    · exact Or.inr ⟨h.one, rfl, h.last⟩
  | deliver n hn =>
    rcases h with h | h
    · rw [h.free] at hn
      cases hn
    · have hzero : n = 0 := by
        have := hn.symm.trans h.one
        omega
      exact Or.inl ⟨hzero, h.last.symm⟩

/-! ## What the reader gets -/

/-- What is delivered is a prefix of what is written. -/
theorem Faithful.inOrder (h : Faithful r) : r.delivered <+: r.written := by
  rcases h with h | h
  · exact ⟨[], (List.append_nil _).trans h.same⟩
  · exact ⟨[r.content], h.last.symm⟩

/-- Each written value is delivered or in flight. -/
theorem Faithful.accounted (h : Faithful r) :
    r.written.length = r.delivered.length + r.inFlight := by
  rcases h with h | h
  · rw [h.same, h.free, Nat.add_zero]
  · rw [h.last, h.one, List.length_append, List.length_singleton]

/-- When nothing is under way, the reader has got everything. -/
theorem Faithful.complete (h : Faithful r) (hfree : r.inFlight = 0) : r.delivered = r.written :=
  (h.settled (Or.inr hfree)).same

end Lib.SharedRegister
