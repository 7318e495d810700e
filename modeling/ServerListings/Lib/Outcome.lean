import ServerListings.Lib.Ensures

/-!
# The outcomes of checked computations

`Outcome x Q E` has two postconditions, one for the result of `x` and one for its fault. With
an `E` that leaves a fault out it says that `x` does not end in this fault. `SameUnless` compares a
computation with checked `int` arithmetic with one on numbers.
-/

set_option autoImplicit false

namespace Lib.CMem

/-- Every result of `x` satisfies `Q`, and every fault `E`. -/
structure Outcome {α : Type} (x : Checked α) (Q : α → Prop) (E : Fault → Prop) : Prop where
  result : ∀ {a : α}, x = .ok a → Q a
  fault : ∀ {e : Fault}, x = .error e → E e

section Rules

variable {α β : Type} {P : α → Prop} {Q R : β → Prop} {E E' : Fault → Prop}

/-- A result has what holds of it. -/
theorem outcome_ok {b : β} (h : Q b) : Outcome (.ok b) Q E := by
  constructor
  · intro b' hb
    rwa [← Except.ok.inj hb]
  · intro e he
    cases he

/-- A returned value has what holds of it. -/
theorem outcome_pure {b : β} (h : Q b) : Outcome (pure b) Q E := outcome_ok h

/-- A fault has what holds of it. -/
theorem outcome_error {e : Fault} (h : E e) : Outcome (.error e : Checked β) Q E := by
  constructor
  · intro b hb
    cases hb
  · intro e' he
    rwa [← Except.error.inj he]

/-- The rule for two computations in a row. -/
theorem Outcome.bind {x : Checked α} {f : α → Checked β} (hx : Outcome x P E)
    (h : ∀ a, P a → Outcome (f a) Q E) : Outcome (x >>= f) Q E := by
  cases x with
  | error e => exact outcome_error (hx.fault rfl)
  | ok a => exact h a (hx.result rfl)

/-- A weaker condition on results and faults. -/
theorem Outcome.mono {x : Checked β} (hx : Outcome x Q E) (hQ : ∀ b, Q b → R b)
    (hE : ∀ e, E e → E' e) : Outcome x R E' :=
  ⟨fun hb => hQ _ (hx.result hb), fun he => hE _ (hx.fault he)⟩

/-- A fault that is excluded does not happen. -/
theorem Outcome.ne_error {x : Checked β} (hx : Outcome x Q E) {e : Fault} (he : ¬ E e) :
    x ≠ .error e := fun h => he (hx.fault h)

/-- A subscript of the array gives one of its elements. -/
theorem outcome_load {m : List α} {i : Nat} (h : i < m.length) :
    Outcome (load m i) (fun a => m[i]? = some a) E := by
  rw [load_of_lt h]
  exact outcome_ok (List.getElem?_eq_getElem h)

/-- A store in bounds sets the element. -/
theorem outcome_store {m : List α} {i : Nat} (a : α) (h : i < m.length) :
    Outcome (store m i a) (fun m' => m' = m.set i a) E := by
  rw [store_of_lt a h]
  exact outcome_ok rfl

end Rules

/-! ## Arithmetic of `int` -/

/-- The value of an expression of type `int` that is not negative. -/
def intOf (n : Nat) : Checked Nat := if (n : Int) ≤ intMax then .ok n else .error .overflow

/-- A number up to `INT_MAX` is an `int`. -/
theorem intOf_of_le {n : Nat} (h : (n : Int) ≤ intMax) : intOf n = .ok n := if_pos h

/-- A larger number overflows. -/
theorem intOf_of_lt {n : Nat} (h : intMax < n) : intOf n = .error .overflow := if_neg (not_le.mpr h)

/-- The computations are the same, unless an `int` expression of the first one overflows, and
none does under the condition `p`. -/
def SameUnless {α : Type} (p : Prop) (x y : Checked α) : Prop := x = y ∨ ¬ p ∧ x = .error .overflow

section SameUnless

variable {α β : Type} {p p' : Prop} {x y : Checked α} {f g : α → Checked β}

/-- A computation is the same as itself. -/
theorem sameUnless_refl (p : Prop) (x : Checked α) : SameUnless p x x := Or.inl rfl

/-- Two computations in a row are the same when both parts are. -/
theorem SameUnless.bind (hx : SameUnless p x y) (h : ∀ a, y = .ok a → SameUnless p (f a) (g a)) :
    SameUnless p (x >>= f) (y >>= g) := by
  rcases hx with rfl | ⟨hp, rfl⟩
  · cases hy : x with
    | error e => exact Or.inl rfl
    | ok a => exact h a hy
  · exact Or.inr ⟨hp, rfl⟩

/-- Under the condition the checked computation is the other one. -/
theorem SameUnless.eq_of (hx : SameUnless p x y) (hp : p) : x = y := by
  rcases hx with heq | ⟨hnot, _⟩
  · exact heq
  · exact absurd hp hnot

/-- The same under a weaker condition. -/
theorem SameUnless.mono (hx : SameUnless p x y) (h : p' → p) : SameUnless p' x y := by
  rcases hx with heq | ⟨hp, hover⟩
  · exact Or.inl heq
  · exact Or.inr ⟨fun hp' => hp (h hp'), hover⟩

/-- The expression has its value if the condition makes it fit. -/
theorem sameUnless_intOf {n : Nat} {f : Nat → Checked α} (h : p → (n : Int) ≤ intMax)
    (hf : SameUnless p (f n) y) : SameUnless p (intOf n >>= f) y := by
  by_cases hn : (n : Int) ≤ intMax
  · rwa [intOf_of_le hn, ok_bind]
  · rw [intOf, if_neg hn]
    exact Or.inr ⟨fun hp => hn (h hp), rfl⟩

/-- What holds of one computation holds of the other but for the overflow. -/
theorem SameUnless.outcome {Q : α → Prop} {E : Fault → Prop} (hx : SameUnless p x y)
    (hy : Outcome y Q E) : Outcome x Q (fun e => E e ∨ e = .overflow ∧ ¬ p) := by
  rcases hx with rfl | ⟨hp, rfl⟩
  · exact hy.mono (fun _ h => h) (fun _ h => Or.inl h)
  · exact outcome_error (Or.inr ⟨rfl, hp⟩)

end SameUnless

end Lib.CMem
