import Mathlib

/-!
# Timer services

A timer service is asked to add a timer, to cancel one, or to handle the timers whose deadlines
have passed. The ledger says which timers it holds after such requests. A service that
implements the ledger makes the calls of the live timers that are due, in the order of their
deadlines (`Implements`). Two services that do so cannot be told apart but for the order of
timers with the same deadline (`Implements.agree`).
-/

set_option autoImplicit false

namespace Lib.TimerService

/-- A timer of the ledger. One that was cancelled stays until its deadline, but is not live. -/
structure Entry (α κ β : Type) where
  name : α
  deadline : κ
  call : β
  live : Bool
  deriving DecidableEq, Repr

inductive Request (α κ β : Type)
  | add (name : α) (deadline : κ) (call : β)
  | cancel (name : α)
  | tick (now : κ)
  deriving DecidableEq, Repr

/-- The timers that are held, the names used so far, and the time of the last tick. -/
structure Ledger (α κ β : Type) where
  entries : List (Entry α κ β)
  used : List α
  last : κ

/-- A ledger without timers. -/
def Ledger.start {α κ β : Type} (last : κ) : Ledger α κ β := ⟨[], [], last⟩

section Ledger

variable {α κ β : Type} [DecidableEq α] [LinearOrder κ]

/-- The entry, no longer live if it has the name that is cancelled. -/
def Entry.cancel (name : α) (e : Entry α κ β) : Entry α κ β :=
  if e.name = name then { e with live := false } else e

/-- The ledger after a request. -/
def Ledger.after (a : Ledger α κ β) : Request α κ β → Ledger α κ β
  | .add name deadline call =>
    { a with entries := ⟨name, deadline, call, true⟩ :: a.entries, used := name :: a.used }
  | .cancel name => { a with entries := a.entries.map (Entry.cancel name) }
  | .tick now => { a with entries := a.entries.filter (now < ·.deadline), last := now }

/-- The entries of the timers that may still be called. -/
def Ledger.active (a : Ledger α κ β) : List (Entry α κ β) := a.entries.filter (·.live)

/-- The entries whose calls a tick makes. -/
def Ledger.due (a : Ledger α κ β) (now : κ) : List (Entry α κ β) :=
  a.active.filter (·.deadline ≤ now)

/-- A request that a client may make: a new timer has a new name, and a timer is cancelled
only while it may still be called. -/
def Ledger.Allows (a : Ledger α κ β) : Request α κ β → Prop
  | .add name _ _ => name ∉ a.used
  | .cancel name => ∃ e ∈ a.active, e.name = name
  | .tick _ => True

instance (a : Ledger α κ β) (r : Request α κ β) : Decidable (a.Allows r) :=
  match r with
  | .add name _ _ => inferInstanceAs (Decidable (name ∉ a.used))
  | .cancel name => inferInstanceAs (Decidable (∃ e ∈ a.active, e.name = name))
  | .tick _ => inferInstanceAs (Decidable True)

/-- The calls that a request has to make, given as they were made. -/
def Ledger.Answers (a : Ledger α κ β) : Request α κ β → List β → Prop
  | .add _ _ _, calls => calls = []
  | .cancel _, calls => calls = []
  | .tick now, calls => ∃ es : List (Entry α κ β), es.Perm (a.due now) ∧
      es.Pairwise (·.deadline ≤ ·.deadline) ∧ calls = es.map (·.call)

/-- Two answers to one request: the same calls, and in the same order if no two of the timers
have the same deadline. -/
def Ledger.Same (a : Ledger α κ β) (r : Request α κ β) (calls calls' : List β) : Prop :=
  calls.Perm calls' ∧
    ∀ now, r = .tick now → ((a.due now).map (·.deadline)).Nodup → calls = calls'

variable {a : Ledger α κ β} {r : Request α κ β} {calls calls' : List β}

omit [DecidableEq α] in
/-- An order of the entries by pairwise different deadlines is the only one. -/
theorem eq_of_sorted {es es' : List (Entry α κ β)} (hperm : es.Perm es')
    (hs : es.Pairwise (·.deadline ≤ ·.deadline)) (hs' : es'.Pairwise (·.deadline ≤ ·.deadline))
    (hnodup : (es.map (·.deadline)).Nodup) : es = es' := by
  apply hperm.eq_of_pairwise _ hs hs'
  intro x y hx hy hxy hyx
  exact List.inj_on_of_nodup_map hnodup hx (hperm.mem_iff.mpr hy) (le_antisymm hxy hyx)

omit [DecidableEq α] in
/-- Two answers to one request are the same. -/
theorem Ledger.Answers.same (h : a.Answers r calls) (h' : a.Answers r calls') :
    a.Same r calls calls' := by
  cases r with
  | add name deadline call =>
    obtain rfl : calls = [] := h
    obtain rfl : calls' = [] := h'
    exact ⟨.refl _, fun _ _ _ => rfl⟩
  | cancel name =>
    obtain rfl : calls = [] := h
    obtain rfl : calls' = [] := h'
    exact ⟨.refl _, fun _ _ _ => rfl⟩
  | tick now =>
    obtain ⟨es, hperm, hs, rfl⟩ := h
    obtain ⟨es', hperm', hs', rfl⟩ := h'
    have hsame := hperm.trans hperm'.symm
    refine ⟨hsame.map _, ?_⟩
    intro now' hnow hnodup
    obtain rfl := Request.tick.inj hnow
    rw [eq_of_sorted hsame hs hs' ((hperm.map _).nodup_iff.mpr hnodup)]

/-! ## Services -/

variable {σ σ' ε : Type}

/-- The answers to requests that are made one after the other. -/
def serveAll (serve : σ → Request α κ β → Except ε (σ × List β)) (s : σ) :
    List (Request α κ β) → Except ε (List (List β) × σ)
  | [] => .ok ([], s)
  | r :: rs =>
    (serve s r).bind fun p => (serveAll serve p.1 rs).map fun q => (p.2 :: q.1, q.2)

/-- Requests that the client may make one after the other, each of which meets a condition on
the ledger before it. -/
def AllowedAll (cond : Ledger α κ β → Request α κ β → Prop) (a : Ledger α κ β) :
    List (Request α κ β) → Prop
  | [] => True
  | r :: rs => a.Allows r ∧ cond a r ∧ AllowedAll cond (a.after r) rs

instance decidableAllowedAll (cond : Ledger α κ β → Request α κ β → Prop)
    [∀ a r, Decidable (cond a r)] :
    ∀ (a : Ledger α κ β) (rs : List (Request α κ β)), Decidable (AllowedAll cond a rs)
  | _, [] => .isTrue trivial
  | a, r :: rs =>
    have := decidableAllowedAll cond (a.after r) rs
    inferInstanceAs (Decidable (_ ∧ _ ∧ _))

/-- Answers that agree request by request. -/
def SameAll (a : Ledger α κ β) : List (Request α κ β) → List (List β) → List (List β) → Prop
  | [], [], [] => True
  | r :: rs, c :: cs, c' :: cs' => a.Same r c c' ∧ SameAll (a.after r) rs cs cs'
  | _, _, _ => False

/-- The service answers each request that meets the condition as the ledger says, and its state
stands for the ledger after it. -/
structure Implements (serve : σ → Request α κ β → Except ε (σ × List β))
    (cond : Ledger α κ β → Request α κ β → Prop) (rel : σ → Ledger α κ β → Prop) : Prop where
  answer : ∀ s a r, rel s a → a.Allows r → cond a r →
    ∃ s' calls, serve s r = .ok (s', calls) ∧ rel s' (a.after r) ∧ a.Answers r calls

variable {serve : σ → Request α κ β → Except ε (σ × List β)}
  {serve' : σ' → Request α κ β → Except ε (σ' × List β)}
  {cond : Ledger α κ β → Request α κ β → Prop} {rel : σ → Ledger α κ β → Prop}
  {rel' : σ' → Ledger α κ β → Prop} {s : σ} {s' : σ'} {rs : List (Request α κ β)}

/-- A stronger condition is implemented as well. -/
theorem Implements.mono {cond' : Ledger α κ β → Request α κ β → Prop}
    (h : Implements serve cond rel) (hle : ∀ a r, cond' a r → cond a r) :
    Implements serve cond' rel where
  answer := fun s a r hrel hallow hcond => h.answer s a r hrel hallow (hle a r hcond)

/-- Two services that implement the ledger give the same answers to any requests. -/
theorem Implements.agree (h : Implements serve cond rel) (h' : Implements serve' cond rel')
    (hrel : rel s a) (hrel' : rel' s' a) (hrs : AllowedAll cond a rs) :
    ∃ cs t cs' t', serveAll serve s rs = .ok (cs, t) ∧ serveAll serve' s' rs = .ok (cs', t') ∧
      SameAll a rs cs cs' := by
  induction rs generalizing s s' a with
  | nil => exact ⟨[], s, [], s', rfl, rfl, trivial⟩
  | cons r rs ih =>
    obtain ⟨hallow, hcond, hrest⟩ := hrs
    obtain ⟨s₁, c, hs, hrel₁, hans⟩ := h.answer s a r hrel hallow hcond
    obtain ⟨s₁', c', hs', hrel₁', hans'⟩ := h'.answer s' a r hrel' hallow hcond
    obtain ⟨cs, t, cs', t', hall, hall', hsame⟩ := ih hrel₁ hrel₁' hrest
    refine ⟨c :: cs, t, c' :: cs', t', ?_, ?_, hans.same hans', hsame⟩
    · simp only [serveAll, hs, Except.bind, hall, Except.map]
    · simp only [serveAll, hs', Except.bind, hall', Except.map]

end Ledger

end Lib.TimerService
