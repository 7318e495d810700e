import ServerListings.Lib.CMem

/-!
# Postconditions of checked computations

`Ensures x Q` is partial correctness: every result of `x` satisfies `Q`, and a fault promises
nothing. The rules follow the structure of a computation, so a fact about a function is that
of its parts.
-/

set_option autoImplicit false

namespace Lib.CMem

/-- Every result of `x` satisfies `Q`. -/
structure Ensures {α : Type} (x : Checked α) (Q : α → Prop) : Prop where
  result : ∀ {a : α}, x = .ok a → Q a

section Rules

variable {α β : Type} {P : α → Prop} {Q R : β → Prop}

/-- A returned value ensures what holds of it. -/
theorem ensures_pure {b : β} (h : Q b) : Ensures (pure b) Q := by
  constructor
  intro b' hb
  rwa [← Except.ok.inj hb]

/-- A fault ensures everything. -/
theorem ensures_error (e : Fault) : Ensures (.error e) Q := by
  constructor
  intro b hb
  cases hb

/-- A computation of which nothing needs to be known comes first. -/
theorem ensures_bind {x : Checked α} {f : α → Checked β} (h : ∀ a, Ensures (f a) Q) :
    Ensures (x >>= f) Q := by
  constructor
  intro b hb
  obtain ⟨a, -, hf⟩ := bind_eq_ok.mp hb
  exact (h a).result hf

/-- What the first computation ensures is there for the second one. -/
theorem Ensures.bind {x : Checked α} {f : α → Checked β} (hx : Ensures x P)
    (h : ∀ a, P a → Ensures (f a) Q) : Ensures (x >>= f) Q := by
  constructor
  intro b hb
  obtain ⟨a, ha, hf⟩ := bind_eq_ok.mp hb
  exact (h a (hx.result ha)).result hf

/-- Both branches ensure it. -/
theorem ensures_ite {p : Prop} [Decidable p] {x y : Checked β} (hx : Ensures x Q)
    (hy : Ensures y Q) : Ensures (if p then x else y) Q := by
  split
  · exact hx
  · exact hy

/-- A weaker condition is ensured as well. -/
theorem Ensures.mono {x : Checked β} (hx : Ensures x Q) (h : ∀ b, Q b → R b) : Ensures x R :=
  ⟨fun hb => h _ (hx.result hb)⟩

end Rules

end Lib.CMem
