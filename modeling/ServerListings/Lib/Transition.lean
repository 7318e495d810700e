/-!
# Runs of a labelled transition system

A run is a chain of steps. `Run step cond s₀ s` says that `s` is reached from `s₀` by steps
that all meet a condition on the state before them and their label. `Trace step s ls s'` also
gives the labels of the steps.
-/

set_option autoImplicit false

namespace Lib.Transition

variable {σ ι : Type} {step : σ → ι → σ → Prop} {cond cond' : σ → ι → Prop} {s₀ s s' : σ} {l : ι}

/-- The states that are reached from `s₀` by steps that meet `cond`. -/
inductive Run (step : σ → ι → σ → Prop) (cond : σ → ι → Prop) (s₀ : σ) : σ → Prop where
  | refl : Run step cond s₀ s₀
  | step {s s' : σ} {l : ι} : Run step cond s₀ s → step s l s' → cond s l → Run step cond s₀ s'

/-- What holds in the first state and is preserved by the steps that meet the condition holds
in every state of a run. -/
theorem Run.invariant {I : σ → Prop} (hrun : Run step cond s₀ s) (hinit : I s₀)
    (hstep : ∀ s l s', I s → step s l s' → cond s l → I s') : I s := by
  induction hrun with
  | refl => exact hinit
  | step _ hs hc ih => exact hstep _ _ _ ih hs hc

/-- Runs one after the other. -/
theorem Run.trans {s₁ : σ} (h : Run step cond s₀ s₁) (h' : Run step cond s₁ s) :
    Run step cond s₀ s := by
  induction h' with
  | refl => exact h
  | step _ hs hc ih => exact ih.step hs hc

/-- A run meets every weaker condition. -/
theorem Run.mono (hrun : Run step cond s₀ s) (hle : ∀ s l, cond s l → cond' s l) :
    Run step cond' s₀ s := by
  induction hrun with
  | refl => exact .refl
  | step _ hs hc ih => exact ih.step hs (hle _ _ hc)

/-- A run of a system is one of every system that has its steps. -/
theorem Run.embed {step' : σ → ι → σ → Prop} (hrun : Run step cond s₀ s)
    (hle : ∀ s l s', step s l s' → step' s l s') : Run step' cond s₀ s := by
  induction hrun with
  | refl => exact .refl
  | step _ hs hc ih => exact ih.step (hle _ _ _ hs) hc

/-! ## Runs with their labels -/

/-- The steps from one state to another one, with the labels `ls`. -/
inductive Trace (step : σ → ι → σ → Prop) : σ → List ι → σ → Prop where
  | nil (s : σ) : Trace step s [] s
  | cons {s s' s'' : σ} {l : ι} {ls : List ι} :
      step s l s' → Trace step s' ls s'' → Trace step s (l :: ls) s''

/-- A trace of two parts has a state in the middle. -/
theorem Trace.split {ls ls' : List ι} (h : Trace step s (ls ++ ls') s') :
    ∃ s₁, Trace step s ls s₁ ∧ Trace step s₁ ls' s' := by
  induction ls generalizing s with
  | nil => exact ⟨s, .nil s, h⟩
  | cons l ls ih =>
    cases h with
    | cons hstep hrest =>
      obtain ⟨s₁, hleft, hright⟩ := ih hrest
      exact ⟨s₁, .cons hstep hleft, hright⟩

/-- What every step preserves holds at the end of a trace if it holds at its start. -/
theorem Trace.invariant {I : σ → Prop} {ls : List ι} (h : Trace step s ls s') (hinit : I s)
    (hstep : ∀ s l s', I s → step s l s' → I s') : I s' := by
  induction h with
  | nil s => exact hinit
  | cons hs _ ih => exact ih (hstep _ _ _ hinit hs)

/-! ## Runs with a log -/

/-- The states that are reached by steps that meet `cond`, with the log of the run: a step
from `s` with label `l` adds `emit s l`. -/
inductive Logged {ε : Type} (step : σ → ι → σ → Prop) (cond : σ → ι → Prop) (emit : σ → ι → List ε)
    (s₀ : σ) : List ε → σ → Prop where
  | refl : Logged step cond emit s₀ [] s₀
  | step {s s' : σ} {l : ι} {log : List ε} :
      Logged step cond emit s₀ log s → step s l s' → cond s l →
      Logged step cond emit s₀ (log ++ emit s l) s'

section Logged

variable {ε : Type} {emit : σ → ι → List ε} {log : List ε}

/-- A run with its log is a run. -/
theorem Logged.run (h : Logged step cond emit s₀ log s) : Run step cond s₀ s := by
  induction h with
  | refl => exact .refl
  | step _ hs hc ih => exact ih.step hs hc

/-- Every run has a log. -/
theorem Run.logged (h : Run step cond s₀ s) (emit : σ → ι → List ε) :
    ∃ log, Logged step cond emit s₀ log s := by
  induction h with
  | refl => exact ⟨[], .refl⟩
  | step _ hs hc ih =>
    obtain ⟨log, hlog⟩ := ih
    exact ⟨_, hlog.step hs hc⟩

/-- A run with a log is one of every system that has its steps. -/
theorem Logged.embed {step' : σ → ι → σ → Prop} (h : Logged step cond emit s₀ log s)
    (hle : ∀ s l s', step s l s' → step' s l s') : Logged step' cond emit s₀ log s := by
  induction h with
  | refl => exact .refl
  | step _ hs hc ih => exact ih.step (hle _ _ _ hs) hc

/-- What holds of the first state with an empty log and is kept by every step holds of every
state with its log. -/
theorem Logged.invariant {I : List ε → σ → Prop} (h : Logged step cond emit s₀ log s)
    (hinit : I [] s₀)
    (hstep : ∀ log s l s', I log s → step s l s' → cond s l → I (log ++ emit s l) s') : I log s := by
  induction h with
  | refl => exact hinit
  | step _ hs hc ih => exact hstep _ _ _ _ ih hs hc

end Logged

/-! ## Systems with a step function -/

/-- The step function of a system whose actions are performed if they are enabled. -/
def attempt (enabled : σ → ι → Prop) [∀ s l, Decidable (enabled s l)] (perform : σ → ι → σ) (s : σ)
    (l : ι) : Option σ := if enabled s l then some (perform s l) else none

/-- An attempt succeeds when the step is possible. -/
theorem attempt_eq_some {enabled : σ → ι → Prop} [∀ s l, Decidable (enabled s l)] {perform : σ → ι → σ}
    (h : attempt enabled perform s l = some s') : enabled s l ∧ s' = perform s l := by
  rw [attempt] at h
  split at h
  · exact ⟨‹_›, (Option.some.inj h).symm⟩
  · cases h

/-- The state after the steps of a list, if each is possible and meets the condition. -/
def schedule (f : σ → ι → Option σ) (cond : σ → ι → Prop) [∀ s l, Decidable (cond s l)] (s : σ) :
    List ι → Option σ
  | [] => some s
  | l :: ls => if cond s l then (f s l).bind fun s' => schedule f cond s' ls else none

/-- A schedule that succeeds is a run. -/
theorem Run.of_schedule {f : σ → ι → Option σ} [∀ s l, Decidable (cond s l)] {ls : List ι}
    (hrun : Run step cond s₀ s) (hstep : ∀ s l s', f s l = some s' → step s l s')
    (h : schedule f cond s ls = some s') : Run step cond s₀ s' := by
  induction ls generalizing s with
  | nil =>
    obtain rfl := Option.some.inj h
    exact hrun
  | cons l ls ih =>
    rw [schedule] at h
    split at h
    · obtain ⟨s₁, hf, hrest⟩ := Option.bind_eq_some_iff.mp h
      exact ih (hrun.step (hstep _ _ _ hf) ‹_›) hrest
    · cases h

/-- The same with the log of the steps. -/
def loggedSchedule {ε : Type} (f : σ → ι → Option σ) (cond : σ → ι → Prop)
    [∀ s l, Decidable (cond s l)] (emit : σ → ι → List ε) (s : σ) : List ι → Option (List ε × σ)
  | [] => some ([], s)
  | l :: ls =>
    if cond s l then
      (f s l).bind fun s' =>
        (loggedSchedule f cond emit s' ls).map fun r => (emit s l ++ r.1, r.2)
    else none

/-- The steps of a schedule are possible, and meet a condition that follows from the one that
is tested. -/
theorem Logged.of_schedule {ε : Type} {emit : σ → ι → List ε} {f : σ → ι → Option σ}
    [∀ s l, Decidable (cond' s l)] {ls : List ι} {log log' : List ε}
    (hrun : Logged step cond emit s₀ log s) (hstep : ∀ s l s', f s l = some s' → step s l s')
    (hcond : ∀ s, ∀ l ∈ ls, cond' s l → cond s l)
    (h : loggedSchedule f cond' emit s ls = some (log', s')) :
    Logged step cond emit s₀ (log ++ log') s' := by
  induction ls generalizing s log log' with
  | nil =>
    obtain ⟨rfl, rfl⟩ := Prod.mk.inj (Option.some.inj h)
    rwa [List.append_nil]
  | cons l ls ih =>
    rw [loggedSchedule] at h
    split at h
    · obtain ⟨s₁, hf, hrest⟩ := Option.bind_eq_some_iff.mp h
      obtain ⟨⟨log₁, s₂⟩, hlog, hlast⟩ := Option.map_eq_some_iff.mp hrest
      obtain ⟨rfl, rfl⟩ := Prod.mk.inj hlast
      have hmore := hrun.step (hstep _ _ _ hf) (hcond _ _ List.mem_cons_self ‹_›)
      rw [← List.append_assoc]
      exact ih hmore (fun s l hl => hcond s l (List.mem_cons_of_mem _ hl)) hlog
    · cases h

/-- A schedule that is possible, with a test of what it comes to. -/
theorem exists_logged {ε : Type} {emit : σ → ι → List ε} {f : σ → ι → Option σ}
    [∀ s l, Decidable (cond s l)] {ls : List ι} {test : List ε × σ → Bool}
    (hstep : ∀ s l s', f s l = some s' → step s l s')
    (h : (loggedSchedule f cond emit s₀ ls).any test = true) :
    ∃ log s, Logged step cond emit s₀ log s ∧ test (log, s) = true := by
  cases hr : loggedSchedule f cond emit s₀ ls with
  | none =>
    rw [hr] at h
    cases h
  | some r =>
    rw [hr] at h
    exact ⟨r.1, r.2, Logged.of_schedule .refl hstep (fun _ _ _ hc => hc) hr, h⟩

end Lib.Transition
