import ServerListings.Lib.Transition

/-!
# Simulations between transition systems

When each step of a run can be answered by a run of another system that keeps a relation
between the states, the whole run can. The answer may be no step at all, or several.
-/

set_option autoImplicit false

namespace Lib.Transition

variable {σ τ ι κ : Type} {step : σ → ι → σ → Prop} {cond : σ → ι → Prop}
  {step' : τ → κ → τ → Prop} {cond' : τ → κ → Prop} {s₀ s : σ} {t₀ : τ}

/-- A forward simulation. What is known of the states of the other system may be used, as they
are reached by a run of it. -/
theorem Run.simulate {rel : σ → τ → Prop} (hrun : Run step cond s₀ s) (hinit : rel s₀ t₀)
    (hstep : ∀ s l s' t, Run step' cond' t₀ t → rel s t → step s l s' → cond s l →
      ∃ t', Run step' cond' t t' ∧ rel s' t') :
    ∃ t, Run step' cond' t₀ t ∧ rel s t := by
  induction hrun with
  | refl => exact ⟨t₀, .refl, hinit⟩
  | step _ hs hc ih =>
    obtain ⟨t, ht, hrel⟩ := ih
    obtain ⟨t', ht', hrel'⟩ := hstep _ _ _ t ht hrel hs hc
    exact ⟨t', ht.trans ht', hrel'⟩

end Lib.Transition
