import ServerListings.Interface.WheelRuns

/-!
# Which ticks respect the lifetimes of the timers

`tick` deletes the successor of an expired timer that is not the first one of its slot, although
it goes on with this successor. A run whose ticks all find such a timer at the end of its slot
(`TickSafe`) keeps every linked timer in the store, and each call deletes what it should. A tick
that finds another one follows a deleted timer.
-/

set_option autoImplicit false

namespace ServerListings.Analysis.WheelLifetime

open Lib.CMem Lib.TimingWheel Lib.Transition ServerListings.Model ServerListings.Interface.WheelSlots
open ServerListings.Interface.WheelOps ServerListings.Interface.WheelRules

/-- The ticks meet the condition. -/
abbrev Safely (s : WheelState) (op : WheelOp) : Prop := op = .tick → TickSafe s

section Runs

variable {s s' : WheelState} {a : Agenda} {op : WheelOp}

/-- A safe operation keeps the wheel. -/
theorem holds_step (h : Holds s a) (hstep : Step .kept s op s') (hsafe : Safely s op) :
    ∃ a', Holds s' a' := by
  obtain ⟨s₁, h', called, happly, -, hholds, -, -⟩ :=
    h.serve (k := .kept) hstep.1 fun _ => hsafe
  obtain rfl := result_unique hstep.2 happly
  exact ⟨_, hholds⟩

/-- In every state of a safe run the wheel is well linked. -/
theorem holds_run (h : Run (Step .kept) Safely .create s) : ∃ a, Holds s a := by
  apply h.invariant
  · exact ⟨_, holds_create ⟨0, Nat.zero_lt_succ _⟩ rfl⟩
  · intro s op s' hs hstep hsafe
    obtain ⟨a, ha⟩ := hs
    exact holds_step ha hstep hsafe

/-- A timer in a slot is alive. -/
theorem linked_alive (h : Holds s a) {i : Nat} {p : Ptr} (hin : InSlot s i p) :
    s.memory.nodes p ≠ none := by
  obtain ⟨hi, hp⟩ := (h.inSlot_iff i).mp hin
  obtain ⟨t, ht⟩ := alive_of_mem (h.slot ⟨i, hi⟩) hp
  rw [ht]
  exact Option.some_ne_none t

/-- The destructor deletes the timers in the slots and no others. -/
theorem destroy_exact (h : Holds s a) : ∃ w m, TimeWheel.destroy .kept s.wheel s.memory = .ok (w, m) ∧
    m.calls = s.memory.calls ∧
    ∀ q, m.nodes q = none ↔ s.memory.nodes q = none ∨ ∃ i, InSlot s i q := by
  obtain ⟨w, m, hdestroy, heffect⟩ := h.destroy .kept
  refine ⟨w, m, hdestroy, by rw [heffect.calls, List.append_nil], fun q => ?_⟩
  rw [heffect.gone, List.mem_flatMap]
  apply or_congr Iff.rfl
  constructor
  · rintro ⟨-, i, -, hq⟩
    exact ⟨i, (h.inSlot_iff i).mpr ⟨i.isLt, hq⟩⟩
  · rintro ⟨i, hin⟩
    obtain ⟨hi, hq⟩ := (h.inSlot_iff i).mp hin
    exact ⟨rfl, ⟨i, hi⟩, List.mem_finRange _, hq⟩

end Runs

/-- In every state of a run whose ticks are safe: every linked timer is in the store. A call
returns, and deletes its argument, or the timers that it called, or nothing; a tick returns only
if it is safe, and follows a deleted timer otherwise. The destructor deletes what is linked. -/
theorem lifetimes_respected {s : WheelState} (h : Run (Step .kept) Safely .create s) :
    (∀ i p, InSlot s i p → s.memory.nodes p ≠ none) ∧
      (∀ op, Admissible s op → Safely s op →
        ∃ s' called, s.apply .kept op = .ok s' ∧ Served .kept op s s' called) ∧
      (¬ TickSafe s → s.apply .kept .tick = .error .deadObject) ∧
      ∃ w m, TimeWheel.destroy .kept s.wheel s.memory = .ok (w, m) ∧ m.calls = s.memory.calls ∧
        ∀ q, m.nodes q = none ↔ s.memory.nodes q = none ∨ ∃ i, InSlot s i q := by
  obtain ⟨a, ha⟩ := holds_run h
  refine ⟨fun i p => linked_alive ha, ?_, ?_, destroy_exact ha⟩
  · intro op hop hsafe
    obtain ⟨s', -, called, happly, -, -, -, hserved⟩ := ha.serve (k := .kept) hop fun _ => hsafe
    exact ⟨s', called, happly, hserved⟩
  · intro hlate
    apply ha.tick_unsafe
    rw [ha.tickSafe_iff] at hlate
    exact Bool.eq_false_of_not_eq_true hlate

/-- A run of one addition. -/
theorem lifetimes_respected_add : ∃ s, Run (Step .kept) Safely .create s ∧
    (∀ i p, InSlot s i p → s.memory.nodes p ≠ none) ∧ s.memory.nodes 1 ≠ none := by
  have hstep : Step .kept .create (.add 1 1 7 8) _ := ⟨rfl, rfl⟩
  have hsafe : Safely .create (.add 1 1 7 8) := fun heq => by cases heq
  have hrun := Run.refl.step hstep hsafe
  exact ⟨_, hrun, (lifetimes_respected hrun).1, Option.some_ne_none _⟩

/-- Two timers of one second and one of 61 seconds share a slot. The tick that comes to it calls
the second one, deletes the first one, and follows the pointer to it. -/
theorem deleted_timer_followed : ∃ s,
    Trace (Step .kept) .create [.add 1 1 7 8, .add 2 1 7 9, .add 3 61 7 10, .tick] s ∧
      s.apply .kept .tick = .error .deadObject :=
  ⟨_, .cons ⟨rfl, rfl⟩ (.cons ⟨rfl, rfl⟩ (.cons ⟨rfl, rfl⟩ (.cons ⟨trivial, rfl⟩ (.nil _)))), rfl⟩

end ServerListings.Analysis.WheelLifetime
