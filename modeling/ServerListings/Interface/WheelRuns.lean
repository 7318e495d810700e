import ServerListings.Lib.Transition
import ServerListings.Interface.WheelRules

/-!
# Sequences of calls of the time wheel

A program may add a timer at an address that `new` gives, delete a linked timer, and tick.
Every such call returns, and its effect on the abstract wheel is that of the operations
`opsOf`.
-/

set_option autoImplicit false

namespace ServerListings.Interface.WheelRules

open Lib.CMem Lib.ObjectStore Lib.DoublyLinked Lib.TimingWheel Lib.Transition ServerListings.Model
open ServerListings.Model.TimeWheel ServerListings.Interface.WheelSlots
open ServerListings.Interface.WheelOps

/-- The timers that are met from the head of slot `i` along `next`. -/
def SlotTimers (s : WheelState) (i : Nat) (l : List Ptr) : Prop :=
  ∃ head, s.wheel.slots[i]? = some head ∧ Walk (nextLink s.memory) head l

/-- The timer is linked in slot `i`. -/
def InSlot (s : WheelState) (i : Nat) (p : Ptr) : Prop := ∃ l, SlotTimers s i l ∧ p ∈ l

/-- The calls that a program may make: `new` gives an address where no object is, and a timer is
deleted while it is linked. -/
def Admissible (s : WheelState) : WheelOp → Prop
  | .add p _ _ _ => s.memory.nodes p = none
  | .del none => True
  | .del (some p) => ∃ i, InSlot s i p
  | .tick => True

def Step (k : Lifetimes) (s : WheelState) (op : WheelOp) (s' : WheelState) : Prop :=
  Admissible s op ∧ s.apply k op = .ok s'

/-- What a call does to the abstract wheel. -/
def opsOf : WheelOp → List (Op TimerCall Ptr)
  | .add p timeout f d => if timeout < 0 then [] else [.insert ⟨p, f, d⟩ (ticksOf timeout)]
  | .del none => []
  | .del (some p) => [.remove p]
  | .tick => [.advance]

/-- The condition on a tick in which an expired timer behind others has no successor. -/
def TickSafe (s : WheelState) : Prop :=
  ∀ l, SlotTimers s s.wheel.curSlot l →
    tickSafe (l.map fun p => ((s.memory.nodes p).map (·.rotation)).getD 0) = true

section Runs

variable {k : Lifetimes} {s s' : WheelState} {a : Agenda} {i : Fin N} {p : Ptr} {op : WheelOp}
  {l : List Ptr}

/-- A slot has the timers of its entries. -/
theorem Holds.slotTimers (h : Holds s a) (i : Fin N) : SlotTimers s i (timers (a.slots i)) := by
  refine ⟨(timers (a.slots i)).head?, ?_, (h.slot i).links.walk_next⟩
  rw [h.wheel]
  simp only [List.getElem?_ofFn, i.isLt, dif_pos]

/-- The timers of a slot are those of its entries and no others. -/
theorem Holds.slotTimers_iff (h : Holds s a) (i : Nat) :
    SlotTimers s i l ↔ ∃ hi : i < N, l = timers (a.slots ⟨i, hi⟩) := by
  constructor
  · rintro ⟨head, hhead, hwalk⟩
    have hi : i < N := by
      obtain ⟨hlt, -⟩ := List.getElem?_eq_some_iff.mp hhead
      rw [h.wheel, List.length_ofFn] at hlt
      exact hlt
    obtain ⟨head', hhead', hwalk'⟩ := h.slotTimers ⟨i, hi⟩
    obtain rfl := Option.some.inj (hhead.symm.trans hhead')
    exact ⟨hi, hwalk.unique hwalk'⟩
  · rintro ⟨hi, rfl⟩
    exact h.slotTimers ⟨i, hi⟩

/-- A timer is in a slot when it has an entry there. -/
theorem Holds.inSlot_iff (h : Holds s a) (i : Nat) :
    InSlot s i p ↔ ∃ hi : i < N, p ∈ timers (a.slots ⟨i, hi⟩) := by
  constructor
  · rintro ⟨l, hl, hp⟩
    obtain ⟨hi, rfl⟩ := (h.slotTimers_iff i).mp hl
    exact ⟨hi, hp⟩
  · rintro ⟨hi, hp⟩
    exact ⟨_, h.slotTimers ⟨i, hi⟩, hp⟩

/-- A tick is safe when no timer that is read was deleted in it. -/
theorem Holds.tickSafe_iff (h : Holds s a) :
    TickSafe s ↔ tickSafe (turns (a.slots a.cur)) = true := by
  have hturns : (timers (a.slots a.cur)).map (fun p => ((s.memory.nodes p).map (·.rotation)).getD 0) =
      turns (a.slots a.cur) := by
    unfold timers turns
    rw [List.map_map]
    apply List.map_congr_left
    intro e he
    obtain ⟨t, ht, hrot, -⟩ := ((h.slot a.cur).entries e he).alive
    simp only [Function.comp, ht, hrot, Option.map_some, Option.getD_some]
  unfold TickSafe
  rw [h.wheel, ← hturns]
  constructor
  · intro hsafe
    apply hsafe
    rw [h.slotTimers_iff]
    exact ⟨a.cur.isLt, rfl⟩
  · intro hsafe l hl
    obtain ⟨hi, rfl⟩ := (h.slotTimers_iff _).mp hl
    exact hsafe

/-- The address at which a call makes a timer. -/
def Makes : WheelOp → Ptr → Prop
  | .add p timeout _ _, q => q = p ∧ ¬ timeout < 0
  | _, _ => False

/-- The timers that a call deletes, when it calls the callbacks of `called`. -/
def deletes (called : List TimerCall) : WheelOp → List Ptr
  | .del (some p) => [p]
  | .tick => called.map (·.timer)
  | _ => []

/-- What a call does to the callbacks called and to the objects in the store. -/
structure Served (k : Lifetimes) (op : WheelOp) (s s' : WheelState) (called : List TimerCall) :
    Prop where
  calls : s'.memory.calls = s.memory.calls ++ called
  quiet : op ≠ .tick → called = []
  known : ∀ c ∈ called, s.memory.nodes c.timer ≠ none
  gone : ∀ q, s'.memory.nodes q = none ↔
    (s.memory.nodes q = none ∧ ¬ Makes op q) ∨ (k = .kept ∧ q ∈ deletes called op)

/-- An operation that changes nothing. -/
theorem served_self (hnone : ∀ q, ¬ Makes op q) (hkeep : deletes [] op = []) :
    Served k op s s [] := by
  refine ⟨(List.append_nil _).symm, fun _ => rfl, fun _ hc => absurd hc List.not_mem_nil, fun q => ?_⟩
  rw [hkeep]
  constructor
  · intro hq
    exact Or.inl ⟨hq, hnone q⟩
  · rintro (⟨hq, -⟩ | ⟨-, hq⟩)
    · exact hq
    · cases hq

/-- An operation that makes no timer, from its effect on the objects. -/
theorem served_of_effect {called : List TimerCall} (he : Effect k s.memory s'.memory called
    (deletes called op)) (hquiet : op ≠ .tick → called = []) (hnone : ∀ q, ¬ Makes op q)
    (hknown : ∀ c ∈ called, s.memory.nodes c.timer ≠ none) : Served k op s s' called := by
  refine ⟨he.calls, hquiet, hknown, fun q => ?_⟩
  rw [he.gone]
  constructor
  · rintro (hq | hq)
    · exact Or.inl ⟨hq, hnone q⟩
    · exact Or.inr hq
  · rintro (⟨hq, -⟩ | hq)
    · exact Or.inl hq
    · exact Or.inr hq

/-- When lifetimes are left aside, a call keeps the objects in the store. -/
theorem Served.keeps {called : List TimerCall} (hs : Served .ignored op s s' called)
    (hp : s.memory.nodes p ≠ none) : s'.memory.nodes p ≠ none := by
  intro hnone
  rcases (hs.gone p).mp hnone with ⟨hnone, -⟩ | ⟨hkept, -⟩
  · exact hp hnone
  · cases hkept

/-- The timers that are called are there. -/
theorem Holds.fired_known (h : Holds s a) : ∀ c ∈ a.fired, s.memory.nodes c.timer ≠ none := by
  intro c hc
  obtain ⟨e, he, rfl⟩ := List.mem_map.mp hc
  obtain ⟨t, ht, -⟩ := ((h.slot a.cur).entries e (List.mem_filter.mp he).1).alive
  rw [ht]
  exact Option.some_ne_none t

/-- Every admissible call returns. -/
theorem Holds.serve (h : Holds s a) (hop : Admissible s op)
    (hsafe : k = .kept → op = .tick → TickSafe s) :
    ∃ s' h' called, s.apply k op = .ok s' ∧
      (History.mk a s.memory.calls).run (·.timer) (opsOf op) = h' ∧ Holds s' h'.wheel ∧
      s'.memory.calls = h'.log ∧ Served k op s s' called := by
  cases op with
  | add p timeout f d =>
    by_cases htimeout : timeout < 0
    · refine ⟨s, _, [], apply_add_refused htimeout, rfl, ?_, ?_, served_self ?_ rfl⟩
      · simp only [opsOf, if_pos htimeout]
        exact h
      · simp only [opsOf, if_pos htimeout]
        rfl
      · intro q hq
        exact hq.2 htimeout
    · obtain ⟨s', hs', hholds, hcalls, hgone⟩ :=
        h.add (k := k) (f := f) (d := d) hop htimeout
      refine ⟨s', _, [], hs', rfl, ?_, ?_, ⟨?_, fun _ => rfl, ?_, ?_⟩⟩
      · simp only [opsOf, if_neg htimeout]
        exact hholds
      · simp only [opsOf, if_neg htimeout]
        exact hcalls
      · rw [hcalls, List.append_nil]
      · intro c hc
        cases hc
      · intro q
        rw [hgone]
        unfold Makes deletes
        simp only [List.not_mem_nil, and_false, or_false, htimeout, not_false_eq_true, and_true]
  | del timer =>
    cases timer with
    | none => exact ⟨s, _, [], rfl, rfl, h, rfl, served_self (fun _ hq => hq) rfl⟩
    | some p =>
      obtain ⟨i, hi⟩ := hop
      obtain ⟨hi, hp⟩ := (h.inSlot_iff i).mp hi
      obtain ⟨e, he, rfl⟩ := List.mem_map.mp hp
      obtain ⟨s', hs', hholds, heffect⟩ := Holds.del (k := k) h he
      refine ⟨s', _, [], hs', rfl, hholds, ?_, served_of_effect heffect (fun _ => rfl)
        (fun _ hq => hq) fun _ hc => absurd hc List.not_mem_nil⟩
      rw [heffect.calls, List.append_nil]
      rfl
  | tick =>
    obtain ⟨s', hs', hholds, heffect⟩ := Holds.tick (k := k) h fun hk =>
      h.tickSafe_iff.mp (hsafe hk rfl)
    exact ⟨s', _, a.fired, hs', rfl, hholds, heffect.calls,
      served_of_effect heffect (fun hne => absurd rfl hne) (fun _ hq => hq) h.fired_known⟩

end Runs

end ServerListings.Interface.WheelRules
