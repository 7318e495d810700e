import Mathlib.Data.List.Basic

/-!
# What has happened in a log, and what has not happened since

A log is a list, the oldest entry first. `Since p q log` says that `p` has happened and `q` has
not happened since. A resource is in use since it was taken and not given back, so `Guarded`
says that `q` happens at most once for each `p`, and only after it. `Always` says that every
entry is allowed by the entries before it, and `Agrees` connects a log with a slot that holds
at most one resource.
-/

set_option autoImplicit false

namespace Lib.Histories

variable {α : Type}

/-- `p` is in the log with no `q` behind it. -/
def Since (p q : α) (log : List α) : Prop := ∃ a b, log = a ++ p :: b ∧ q ∉ b

/-- Whenever `q` happens, `p` has happened before and `q` has not happened since. -/
def Guarded (p q : α) (log : List α) : Prop := ∀ a b, log = a ++ q :: b → Since p q a

/-- Whenever `e` happens, the log before it has the property. -/
def Before (e : α) (P : List α → Prop) (log : List α) : Prop := ∀ a b, log = a ++ e :: b → P a

variable {p q e x : α} {P : List α → Prop} {log : List α}

/-- Nothing has happened since in an empty history. -/
theorem not_since_nil : ¬ Since p q [] := by
  rintro ⟨a, b, h, -⟩
  simp at h

/-- One entry more. -/
theorem since_concat : Since p q (log ++ [e]) ↔ e = p ∨ (e ≠ q ∧ Since p q log) := by
  constructor
  · rintro ⟨a, b, h, hq⟩
    obtain rfl | ⟨b', x, rfl⟩ := List.eq_nil_or_concat' b
    · exact Or.inl (List.cons.inj (List.append_inj' h rfl).2).1
    · rw [← List.cons_append, ← List.append_assoc] at h
      obtain ⟨rfl, hx⟩ := List.append_inj' h rfl
      obtain rfl := (List.cons.inj hx).1
      simp only [List.mem_append, List.mem_singleton, not_or] at hq
      exact Or.inr ⟨fun heq => hq.2 heq.symm, a, b', rfl, hq.1⟩
  · rintro (rfl | ⟨hne, a, b, rfl, hq⟩)
    · exact ⟨log, [], rfl, List.not_mem_nil⟩
    · refine ⟨a, b ++ [e], by simp, ?_⟩
      simp only [List.mem_append, List.mem_singleton, not_or]
      exact ⟨hq, fun heq => hne heq.symm⟩

/-- An empty history has no event to come before. -/
theorem before_nil : Before e P [] := by
  intro a b h
  simp at h

/-- One more event has what it needs before it. -/
theorem before_concat : Before e P (log ++ [x]) ↔ Before e P log ∧ (x = e → P log) := by
  constructor
  · intro h
    refine ⟨fun a b hlog => h a (b ++ [x]) (by simp [hlog]), ?_⟩
    rintro rfl
    exact h log [] rfl
  · rintro ⟨h, hlast⟩ a b hlog
    obtain rfl | ⟨b', y, rfl⟩ := List.eq_nil_or_concat' b
    · obtain ⟨rfl, hx⟩ := List.append_inj' hlog rfl
      exact hlast (List.cons.inj hx).1
    · rw [← List.cons_append, ← List.append_assoc] at hlog
      exact h a b' (List.append_inj' hlog rfl).1

/-- An empty history is guarded. -/
theorem guarded_nil : Guarded p q [] := before_nil

/-- One more event is guarded by the one before it. -/
theorem guarded_concat : Guarded p q (log ++ [e]) ↔ Guarded p q log ∧ (e = q → Since p q log) :=
  before_concat

/-! ## Logs whose entries are allowed -/

/-- Every entry is allowed by the log before it. -/
def Always (A : List α → α → Prop) (log : List α) : Prop := ∀ a e b, log = a ++ e :: b → A a e

variable {A : List α → α → Prop}

/-- An empty history has only allowed events. -/
theorem always_nil : Always A [] := by
  intro a e b h
  simp at h

/-- One more event is allowed. -/
theorem always_concat : Always A (log ++ [e]) ↔ Always A log ∧ A log e := by
  constructor
  · intro h
    exact ⟨fun a x b hlog => h a x (b ++ [e]) (by simp [hlog]), h log e [] rfl⟩
  · rintro ⟨h, hlast⟩ a x b hlog
    obtain rfl | ⟨b', y, rfl⟩ := List.eq_nil_or_concat' b
    · obtain ⟨rfl, hx⟩ := List.append_inj' hlog rfl
      obtain rfl := (List.cons.inj hx).1
      exact hlast
    · rw [← List.cons_append, ← List.append_assoc] at hlog
      exact h a x b' (List.append_inj' hlog rfl).1

/-- Entries that are allowed one after the other. -/
theorem always_append {l : List α} (h : Always A log)
    (hl : ∀ a e b, l = a ++ e :: b → A (log ++ a) e) : Always A (log ++ l) := by
  induction l generalizing log with
  | nil => rwa [List.append_nil]
  | cons x l ih =>
    have hx : Always A (log ++ [x]) := by
      refine always_concat.mpr ⟨h, ?_⟩
      have hfirst := hl [] x l rfl
      rwa [List.append_nil] at hfirst
    have hrest := ih hx fun a e b hlog => by
      have hmore := hl (x :: a) e b (by rw [hlog]; rfl)
      rwa [List.append_assoc]
    rwa [List.append_assoc] at hrest

/-! ## A slot for a resource -/

section Slot

variable {ρ : Type} {take give : ρ → α} {r : ρ} {o : Option ρ}

/-- The resources that were taken and not given back are what the slot holds. -/
def Agrees (take give : ρ → α) (o : Option ρ) (log : List α) : Prop :=
  ∀ r, Since (take r) (give r) log ↔ o = some r

/-- An empty history agrees with an empty slot. -/
theorem agrees_nil : Agrees take give none [] := fun _ => iff_of_false not_since_nil nofun

/-- What neither takes nor gives back. -/
theorem Agrees.other (h : Agrees take give o log) (htake : ∀ r, e ≠ take r) (hgive : ∀ r, e ≠ give r) :
    Agrees take give o (log ++ [e]) := by
  intro r
  rw [since_concat, h r]
  exact ⟨fun h' => (h'.resolve_left (htake r)).2, fun h' => Or.inr ⟨hgive r, h'⟩⟩

/-- The empty slot is filled. -/
theorem Agrees.fill (h : Agrees take give none log) (hinj : Function.Injective take) :
    Agrees take give (some r) (log ++ [take r]) := by
  intro r'
  rw [since_concat]
  constructor
  · rintro (heq | ⟨-, hsince⟩)
    · exact congrArg some (hinj heq)
    · cases (h r').mp hsince
  · intro heq
    exact Or.inl (congrArg take (Option.some.inj heq))

/-- The slot is emptied. -/
theorem Agrees.clear (h : Agrees take give (some r) log) (hne : ∀ r r', give r ≠ take r') :
    Agrees take give none (log ++ [give r]) := by
  refine fun r' => iff_of_false ?_ nofun
  rw [since_concat]
  rintro (heq | ⟨hother, hsince⟩)
  · exact hne r r' heq
  · exact hother (congrArg give (Option.some.inj ((h r').mp hsince)))

end Slot

end Lib.Histories
