import ServerListings.Interface.TimerServices
import ServerListings.Interface.WheelRules
import ServerListings.Lib.WheelContents

/-!
# The time wheel and the sorted list cannot be told apart

A clock that goes on by one with each heartbeat drives both, and each timer is added for a
later time than that of the next heartbeat. The wheel counts rotations and slots where the
list compares times, but both make the same calls in every heartbeat. The lifetimes of the
timers of the wheel are left aside.
-/

set_option autoImplicit false

namespace ServerListings.Analysis.WheelService

open Lib.CMem Lib.TimerService Lib.TimingWheel ServerListings.Model ServerListings.Model.TimeWheel
open ServerListings.Interface ServerListings.Interface.WheelSlots ServerListings.Interface.WheelOps
  ServerListings.Interface.WheelRules

/-- The call that the timer of an entry stands for, as the wheel records it. -/
def wheelCall (e : TimerEntry) : TimerCall := ⟨e.name, e.call.1, e.call.2⟩

/-- The entry of the wheel, when `now` is the time of the next heartbeat. -/
def wheelEntry (now : Int) (e : TimerEntry) : TimerCall × Nat :=
  (wheelCall e, (e.deadline - now).toNat)

/-- The wheel has the active entries of the ledger, none of which is late; a name that was not
used is the address of no timer. -/
structure WheelHolds (s : WheelState × Int) (a : TimerLedger) : Prop where
  wheel : ∃ w, Holds s.1 w ∧ w.contents.Perm (a.active.map (wheelEntry s.2))
  next : s.2 = a.last + 1
  ahead : ∀ e ∈ a.active, s.2 ≤ e.deadline
  fresh : ∀ p, p ∉ a.used → s.1.memory.nodes p = none

/-- The heartbeats come one after the other, and a timer is added for a later time than that
of the next one. -/
def InStep (a : TimerLedger) : TimerRequest → Prop
  | .add _ d _ => a.last + 1 < d
  | .cancel _ => True
  | .tick now => now = a.last + 1

instance (a : TimerLedger) (r : TimerRequest) : Decidable (InStep a r) :=
  match r with
  | .add _ d _ => inferInstanceAs (Decidable (a.last + 1 < d))
  | .cancel _ => .isTrue trivial
  | .tick now => inferInstanceAs (Decidable (now = a.last + 1))

section Wheel

variable {s : WheelState × Int} {a : TimerLedger} {p : Ptr} {d : Int} {c : Nat × Nat}

/-- The empty wheel holds what an empty ledger says. -/
theorem wheelHolds_create (last : Int) :
    WheelHolds (WheelState.create, last + 1) (Ledger.start last) where
  wheel := by
    refine ⟨_, holds_create ⟨0, by decide⟩ rfl, ?_⟩
    rw [contents_empty]
    exact .refl _
  next := rfl
  ahead := by
    intro e he
    cases he
  fresh := fun _ _ => rfl

/-- A time is told to the wheel as a timeout in heartbeats. -/
theorem ticksOf_ahead {now : Int} (h : now < d) : ticksOf ((d - now) * SI) = (d - now).toNat := by
  have hone : (d - now) * SI = d - now := Int.mul_one _
  rw [hone, ticksOf, if_neg]
  · exact congrArg Int.toNat (Int.ediv_one _)
  · show ¬ d - now < 1
    omega

/-- The wheel serves an addition for a later tick. -/
theorem WheelHolds.add (h : WheelHolds s a) (hp : p ∉ a.used) (hd : a.last + 1 < d) :
    ∃ s', wheelServe s (.add p d c) = .ok (s', []) ∧ WheelHolds s' (a.after (.add p d c)) := by
  obtain ⟨w, hholds, hperm⟩ := h.wheel
  rw [← h.next] at hd
  have htimeout : ¬ (d - s.2) * SI < 0 := by
    have hone : (d - s.2) * SI = d - s.2 := Int.mul_one _
    omega
  obtain ⟨w', hadd, hholds', -, hnone⟩ :=
    hholds.add (f := c.1) (d := c.2) (h.fresh p hp) htimeout
  rw [ticksOf_ahead hd] at hholds'
  refine ⟨(w', s.2), ?_, ⟨_, hholds', ?_⟩, h.next, ?_, ?_⟩
  · rw [wheelServe, hadd]
    rfl
  · rw [active_add, List.map_cons]
    exact (contents_insert ..).trans (hperm.cons _)
  · intro e he
    rw [active_add] at he
    rcases List.mem_cons.mp he with rfl | he
    · exact Int.le_of_lt hd
    · exact h.ahead e he
  · intro r hr
    exact (hnone r).mpr
      ⟨h.fresh r (List.not_mem_of_not_mem_cons hr), List.ne_of_not_mem_cons hr⟩

/-- The wheel serves a cancellation of an active timer. -/
theorem WheelHolds.cancel (h : WheelHolds s a) (hp : ∃ e ∈ a.active, e.name = p) :
    ∃ s', wheelServe s (.cancel p) = .ok (s', []) ∧ WheelHolds s' (a.after (.cancel p)) := by
  obtain ⟨w, hholds, hperm⟩ := h.wheel
  obtain ⟨e, he, rfl⟩ := hp
  -- the entry is in some slot, from which it is unlinked
  have hmem : wheelEntry s.2 e ∈ w.contents := hperm.mem_iff.mpr (List.mem_map_of_mem he)
  obtain ⟨i, r, hslot, -⟩ := mem_contents.mp hmem
  obtain ⟨w', hdel, hholds', heffect⟩ := hholds.del (k := .ignored) hslot
  refine ⟨(w', s.2), ?_, ⟨_, hholds', ?_⟩, h.next, ?_, ?_⟩
  · have hserve : s.1.apply .ignored (.del (some e.name)) = .ok w' := hdel
    rw [wheelServe, hserve]
    rfl
  · rw [contents_remove, active_cancel]
    apply (hperm.filter _).trans
    rw [List.filter_map]
    rfl
  · intro x hx
    rw [active_cancel] at hx
    exact h.ahead x (List.mem_of_mem_filter hx)
  · intro q hq
    exact (heffect.gone q).mpr (.inl (h.fresh q hq))

/-- The entries that a heartbeat leaves are one heartbeat nearer. -/
theorem nearer_wheelEntry (now : Int) (es : List TimerEntry) :
    nearer (es.map (wheelEntry now)) =
      (es.filter fun e => decide (now < e.deadline)).map (wheelEntry (now + 1)) := by
  unfold nearer
  rw [List.filter_map, List.map_map]
  have hfilter : es.filter ((0 < ·.2) ∘ wheelEntry now) =
      es.filter fun e => decide (now < e.deadline) := by
    apply List.filter_congr
    intro e _
    rw [Function.comp_apply, wheelEntry, decide_eq_decide]
    omega
  rw [hfilter]
  apply List.map_congr_left
  intro e _
  simp only [Function.comp_apply, wheelEntry, Prod.mk.injEq, true_and]
  omega

/-- The entries that fire are those of the timers that are due. -/
theorem fired_wheelEntry (now : Int) (es : List TimerEntry) :
    ((es.map (wheelEntry now)).filter (·.2 = 0)).map Prod.fst =
      (es.filter fun e => decide (e.deadline ≤ now)).map wheelCall := by
  rw [List.filter_map, List.map_map]
  have hfilter : es.filter ((·.2 = 0) ∘ wheelEntry now) =
      es.filter fun e => decide (e.deadline ≤ now) := by
    apply List.filter_congr
    intro e _
    rw [Function.comp_apply, wheelEntry, decide_eq_decide]
    omega
  rw [hfilter]
  rfl

/-- The wheel serves a tick with the calls that are due. -/
theorem WheelHolds.tick (h : WheelHolds s a) (now : Int) (hnow : now = a.last + 1) :
    ∃ s' calls, wheelServe s (.tick now) = .ok (s', calls) ∧
      WheelHolds s' (a.after (.tick now)) ∧ a.Answers (.tick now) calls := by
  obtain ⟨w, hholds, hperm⟩ := h.wheel
  obtain rfl : now = s.2 := hnow.trans h.next.symm
  obtain ⟨w', htick, hholds', heffect⟩ := hholds.tick (k := .ignored) fun hk => by cases hk
  have hfired : w.fired.Perm ((a.due s.2).map wheelCall) := by
    rw [fired_eq]
    exact ((hperm.filter _).map _).trans (.of_eq (fired_wheelEntry s.2 a.active))
  obtain ⟨es, hes, heq⟩ := exists_map_of_perm hfired
  refine ⟨(w', s.2 + 1), es.map (·.call), ?_, ⟨⟨_, hholds', ?_⟩, rfl, ?_, ?_⟩, es, hes, ?_, rfl⟩
  · rw [wheelServe, htick, ok_bind]
    show Except.ok _ = _
    rw [heffect.calls, List.drop_left, heq, List.map_map]
    rfl
  · rw [contents_advance, active_tick, ← nearer_wheelEntry]
    exact (hperm.filter _).map _
  · intro e he
    rw [active_tick] at he
    exact of_decide_eq_true (List.mem_filter.mp he).2
  · intro p hp
    exact (heffect.gone p).mpr (.inl (h.fresh p hp))
  · -- no entry is late, so all that are due have the time of this heartbeat
    apply List.pairwise_of_forall_mem_list
    intro x hx y hy
    have hxdue := List.mem_filter.mp (hes.mem_iff.mp hx)
    have hydue := List.mem_filter.mp (hes.mem_iff.mp hy)
    exact le_trans (of_decide_eq_true hxdue.2) (h.ahead y hydue.1)

/-- The wheel serves every request in step. -/
theorem wheel_implements : Implements wheelServe InStep WheelHolds where
  answer := by
    intro s a r h hallow hstep
    cases r with
    | add p d c =>
      obtain ⟨s', hs, h'⟩ := h.add hallow hstep
      exact ⟨s', [], hs, h', rfl⟩
    | cancel p =>
      obtain ⟨s', hs, h'⟩ := h.cancel hallow
      exact ⟨s', [], hs, h', rfl⟩
    | tick now => exact h.tick now hstep

end Wheel

/-- Two timers for the same heartbeat, a timer more than a turn of the wheel ahead, and one that
is cancelled. -/
def aroundTheWheel : List TimerRequest :=
  [.add 1 2 (7, 1), .add 2 2 (7, 2), .tick 0, .add 3 70 (7, 3), .add 4 2 (7, 4), .cancel 1, .tick 1,
    .tick 2]

end ServerListings.Analysis.WheelService
