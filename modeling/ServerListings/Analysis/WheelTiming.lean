import ServerListings.Interface.WheelRuns

/-!
# The time wheel calls every timer once and on time

Lifetimes are left aside: `delete` keeps the object in place. A timer that `add_timer` returns
waits in its slot for as many ticks as its timeout is worth. The tick behind them calls its
callback and unlinks it. A timer that is deleted before is never called.

The wheel holds an abstract wheel (`Holds`), on which this is `Pending.run`.
-/

set_option autoImplicit false

namespace ServerListings.Analysis.WheelTiming

open Lib.CMem Lib.ObjectStore Lib.DoublyLinked Lib.TimingWheel Lib.Transition ServerListings.Model
open ServerListings.Model.TimeWheel ServerListings.Interface.WheelSlots
open ServerListings.Interface.WheelOps ServerListings.Interface.WheelRules

/-- The timer is met once in slot `i` and in no other slot. -/
def LinkedOnce (s : WheelState) (i : Nat) (p : Ptr) : Prop :=
  (∃ l, SlotTimers s i l ∧ l.count p = 1) ∧ ∀ j, j ≠ i → ¬ InSlot s j p

/-- The calls of the callback of a timer. -/
def callsOf (s : WheelState) (p : Ptr) : List TimerCall :=
  s.memory.calls.filter fun c => c.timer = p

/-- The wheel holds the abstract wheel of `h`, the callbacks called are its log, and the timers
of these calls are in the store. -/
structure Tracks (s : WheelState) (h : History N TimerCall) : Prop where
  holds : Holds s h.wheel
  log : s.memory.calls = h.log
  known : ∀ c ∈ s.memory.calls, s.memory.nodes c.timer ≠ none

section Runs

variable {s s' : WheelState} {h : History N TimerCall} {op : WheelOp} {ops : List WheelOp} {p : Ptr}
  {x : TimerCall} {i : Fin N} {n : Nat}

/-- A new wheel has an empty history. -/
theorem tracks_create : Tracks .create ⟨empty ⟨0, Nat.zero_lt_succ _⟩, []⟩ :=
  ⟨holds_create _ rfl, rfl, fun _ hc => absurd hc List.not_mem_nil⟩

/-- Both wheels serve an operation that is admissible. -/
theorem Tracks.serve (ht : Tracks s h) (hop : Admissible s op) :
    ∃ s' called, s.apply .ignored op = .ok s' ∧ Tracks s' (h.run (·.timer) (opsOf op)) ∧
      Served .ignored op s s' called := by
  obtain ⟨s', h', called, happly, hrun, hholds, hlog, hserved⟩ :=
    ht.holds.serve (k := .ignored) hop fun hk => by cases hk
  have heq : History.mk h.wheel s.memory.calls = h := by
    rw [ht.log]
  rw [heq] at hrun
  refine ⟨s', called, happly, hrun.symm ▸ ⟨hholds, hlog, ?_⟩, hserved⟩
  intro c hc
  rw [hserved.calls, List.mem_append] at hc
  rcases hc with hc | hc
  · exact hserved.keeps (ht.known c hc)
  · exact hserved.keeps (hserved.known c hc)

/-- Both wheels take a step. -/
theorem Tracks.step (ht : Tracks s h) (hstep : Step .ignored s op s') :
    Tracks s' (h.run (·.timer) (opsOf op)) ∧ ∃ called, Served .ignored op s s' called := by
  obtain ⟨s₁, called, happly, htracks, hserved⟩ := ht.serve hstep.1
  obtain rfl := result_unique hstep.2 happly
  exact ⟨htracks, called, hserved⟩

/-- Both wheels take the steps of a trace. -/
theorem Tracks.trace (ht : Tracks s h) (htrace : Trace (Step .ignored) s ops s') :
    Tracks s' (h.run (·.timer) (ops.flatMap opsOf)) := by
  induction htrace generalizing h with
  | nil s => exact ht
  | @cons s s₁ s' op ops hstep _ ih =>
    rw [List.flatMap_cons, History.run, List.foldl_append]
    exact ih (ht.step hstep).1

/-- An address where an object is is not given out again. -/
theorem Tracks.not_made (ht : Tracks s h) (hp : s.memory.nodes p ≠ none)
    (htrace : Trace (Step .ignored) s ops s') : ∀ op ∈ ops, ¬ Makes op p := by
  induction htrace generalizing h with
  | nil s =>
    intro op hop
    cases hop
  | @cons s s₁ s' op ops hstep _ ih =>
    obtain ⟨ht₁, called, hserved⟩ := ht.step hstep
    intro op' hop' hmakes
    rcases List.mem_cons.mp hop' with rfl | hop'
    · cases op' with
      | add q timeout f d =>
        obtain ⟨rfl, -⟩ := hmakes
        exact hp hstep.1
      | del timer => exact hmakes
      | tick => exact hmakes
    · exact ih ht₁ (hserved.keeps hp) op' hop' hmakes

/-! ## Operations that concern a timer -/

/-- An operation concerns a timer that it makes or deletes. -/
theorem concerns_opsOf {o : Op TimerCall Ptr} (ho : o ∈ opsOf op) (hc : o.Concerns (·.timer) p) :
    Makes op p ∨ op = .del (some p) := by
  cases op with
  | add q timeout f d =>
    rw [opsOf] at ho
    by_cases htimeout : timeout < 0
    · rw [if_pos htimeout] at ho
      cases ho
    · rw [if_neg htimeout] at ho
      obtain rfl := List.mem_singleton.mp ho
      have hkey : q = p := hc
      exact Or.inl ⟨hkey.symm, htimeout⟩
  | del timer =>
    cases timer with
    | none => cases ho
    | some q =>
      obtain rfl := List.mem_singleton.mp ho
      obtain rfl : q = p := hc
      exact Or.inr rfl
  | tick =>
    obtain rfl := List.mem_singleton.mp ho
    exact absurd hc id

/-- The ticks of two lists of operations. -/
theorem ticks_append {α κ : Type} (l l' : List (Op α κ)) : ticks (l ++ l') = ticks l + ticks l' := by
  induction l with
  | nil => exact (Nat.zero_add _).symm
  | cons op l ih => exact (congrArg (op.ticks + ·) ih).trans (Nat.add_assoc ..).symm

/-- The ticks are those of the operations on the wheel. -/
theorem ticks_flatMap (ops : List WheelOp) : ticks (ops.flatMap opsOf) = ops.count .tick := by
  induction ops with
  | nil => rfl
  | cons op ops ih =>
    rw [List.flatMap_cons, ticks_append, ih, List.count_cons, Nat.add_comm]
    congr 1
    cases op with
    | add p timeout f d =>
      rw [opsOf]
      split <;> rfl
    | del timer => cases timer <;> rfl
    | tick => rfl

/-! ## Where a timer is -/

/-- A timer is in a slot as often as it has entries there. -/
theorem count_timers (p : Ptr) (q : List (TimerCall × Nat)) :
    (timers q).count p = (entriesOf (·.timer) p q).length := by
  unfold timers entriesOf
  rw [List.count, List.countP_map, List.countP_eq_length_filter]
  rfl

/-- A fresh address is the timer of no entry and of no call. -/
theorem Tracks.fresh (ht : Tracks s h) (hp : s.memory.nodes p = none) :
    Settled (·.timer) h p [] := by
  constructor
  · rw [← ht.log]
    apply List.filter_eq_nil_iff.mpr
    intro c hc heq
    obtain rfl : c.timer = p := of_decide_eq_true heq
    exact ht.known c hc hp
  · intro j
    apply List.filter_eq_nil_iff.mpr
    intro e he heq
    obtain rfl : e.1.timer = p := of_decide_eq_true heq
    obtain ⟨t, halive, -⟩ := ((ht.holds.slot j).entries e he).alive
    rw [hp] at halive
    cases halive

/-- A pending timer is linked once, and was not called. -/
theorem Tracks.pending (ht : Tracks s h) (hp : Pending (·.timer) h i x n) :
    LinkedOnce s i x.timer ∧ callsOf s x.timer = [] := by
  obtain ⟨hlog, r, -, hslots⟩ := hp
  refine ⟨⟨⟨_, ht.holds.slotTimers i, ?_⟩, ?_⟩, ?_⟩
  · rw [count_timers, hslots, if_pos rfl]
    rfl
  · intro j hj hin
    obtain ⟨hlt, hmem⟩ := (ht.holds.inSlot_iff j).mp hin
    have hcount := count_timers x.timer (h.wheel.slots ⟨j, hlt⟩)
    rw [hslots, if_neg (fun heq => hj (congrArg Fin.val heq))] at hcount
    exact List.count_eq_zero.mp hcount hmem
  · unfold callsOf
    rw [ht.log]
    exact hlog

/-- A timer that is settled is in no slot. -/
theorem Tracks.settled {records : List TimerCall} (ht : Tracks s h)
    (hs : Settled (·.timer) h p records) : (∀ j, ¬ InSlot s j p) ∧ callsOf s p = records := by
  obtain ⟨hlog, hslots⟩ := hs
  constructor
  · intro j hin
    obtain ⟨hlt, hmem⟩ := (ht.holds.inSlot_iff j).mp hin
    have hcount := count_timers p (h.wheel.slots ⟨j, hlt⟩)
    rw [hslots] at hcount
    exact List.count_eq_zero.mp hcount hmem
  · unfold callsOf
    rw [ht.log]
    exact hlog

/-! ## From the addition to the end of a run -/

/-- A timer that is added waits in its slot. -/
theorem Tracks.added {timeout : Int} {f d : Nat} (ht : Tracks s h) (htimeout : ¬ timeout < 0)
    (hstep : Step .ignored s (.add p timeout f d) s') :
    ∃ h', Tracks s' h' ∧ Pending (·.timer) h' (slotAfter h.wheel.cur (ticksOf timeout)) ⟨p, f, d⟩
      (ticksOf timeout) ∧ s'.memory.nodes p ≠ none := by
  obtain ⟨htracks, called, hserved⟩ := ht.step hstep
  refine ⟨_, htracks, ?_, ?_⟩
  · have hfresh : Settled (·.timer) h p [] := ht.fresh hstep.1
    rw [opsOf, if_neg htimeout]
    exact Settled.insert (x := (⟨p, f, d⟩ : TimerCall)) hfresh (ticksOf timeout)
  · intro hnone
    rcases (hserved.gone p).mp hnone with ⟨-, hnot⟩ | ⟨-, hdel⟩
    · exact hnot ⟨rfl, htimeout⟩
    · cases hdel

/-- What a run makes of a waiting timer that it does not delete. -/
theorem Tracks.run_pending (ht : Tracks s h) (hp : Pending (·.timer) h i x n)
    (halive : s.memory.nodes x.timer ≠ none) (htrace : Trace (Step .ignored) s ops s')
    (hkeep : .del (some x.timer) ∉ ops) :
    ∃ h', Tracks s' h' ∧
      (ops.count .tick ≤ n → Pending (·.timer) h' i x (n - ops.count .tick)) ∧
      (n < ops.count .tick → Settled (·.timer) h' x.timer [x]) := by
  have hconcern : ∀ o ∈ ops.flatMap opsOf, ¬ o.Concerns (·.timer) x.timer := by
    intro o ho hc
    obtain ⟨op, hop, ho⟩ := List.mem_flatMap.mp ho
    rcases concerns_opsOf ho hc with hmakes | rfl
    · exact ht.not_made halive htrace op hop hmakes
    · exact hkeep hop
  have hrun := hp.run hconcern
  rw [ticks_flatMap] at hrun
  exact ⟨_, ht.trace htrace, hrun⟩

/-- What a run makes of a waiting timer that it deletes. -/
theorem Tracks.run_deleted (ht : Tracks s h) (hp : Pending (·.timer) h i x n)
    (halive : s.memory.nodes x.timer ≠ none) (htrace : Trace (Step .ignored) s ops s')
    (hdel : .del (some x.timer) ∈ ops) :
    ∃ h', Tracks s' h' ∧ Settled (·.timer) h' x.timer [] := by
  obtain ⟨before, after, rfl, hfirst⟩ := List.eq_append_cons_of_mem hdel
  obtain ⟨s₁, hbefore, hrest⟩ := htrace.split
  cases hrest with
  | cons hstep hafter =>
    obtain ⟨h₁, ht₁, hearly, hlate⟩ := ht.run_pending hp halive hbefore hfirst
    have hnone : recordsOf (·.timer) x.timer h₁.log = [] := by
      rcases Nat.lt_or_ge n (before.count .tick) with hlt | hge
      · obtain ⟨j, hin⟩ := hstep.1
        exact absurd hin ((ht₁.settled (hlate hlt)).1 j)
      · exact (hearly hge).1
    have hgone : Settled (fun c : TimerCall => c.timer)
        (h₁.apply (fun c : TimerCall => c.timer) (.remove x.timer)) x.timer [] :=
      hnone ▸ settled_remove h₁ x.timer
    have hnot := ht.not_made halive htrace
    refine ⟨_, (ht₁.step hstep).1.trace hafter, Settled.run hgone ?_⟩
    intro y e hmem hy
    obtain ⟨op, hop, ho⟩ := List.mem_flatMap.mp hmem
    rcases concerns_opsOf ho (p := x.timer) hy with hmakes | rfl
    · exact hnot op (List.mem_append_right _ (List.mem_cons_of_mem _ hop)) hmakes
    · obtain heq := List.mem_singleton.mp ho
      cases heq

end Runs

/-- Every reachable wheel has a history. -/
theorem tracks_reachable {s : WheelState} {ops : List WheelOp}
    (h : Trace (Step .ignored) .create ops s) : ∃ h', Tracks s h' :=
  ⟨_, tracks_create.trace h⟩

/-- The ticks of a time that is not negative. -/
theorem ticksOf_eq {timeout : Int} (h : ¬ timeout < 0) : (ticksOf timeout : Int) = max 1 (timeout / SI) := by
  unfold ticksOf SI
  split <;> omega

/-- Every call returns and leaves slots that can be walked. A timer that `add_timer` returned is
linked in its slot and not called for as many ticks as it was given. From the next tick on it is
in no slot and was called once. If it is deleted before, it is in no slot and never called. -/
theorem fires_once_on_time {before ops : List WheelOp} {s₀ s₁ s : WheelState} {p : Ptr}
    {timeout : Int} {f d : Nat} {w : TimeWheel} {m : WheelMemory}
    (hbefore : Trace (Step .ignored) .create before s₀)
    (hreturned : s₀.wheel.addTimer s₀.memory p timeout = .ok (some p, w, m))
    (hadd : Step .ignored s₀ (.add p timeout f d) s₁) (hafter : Trace (Step .ignored) s₁ ops s) :
    ((∀ op, Admissible s op → ∃ s', Step .ignored s op s') ∧ ∀ i, i < N → ∃ l, SlotTimers s i l) ∧
      (.del (some p) ∉ ops →
        ((ops.count .tick : Int) ≤ max 1 (timeout / SI) →
          LinkedOnce s ((s₀.wheel.curSlot + (max 1 (timeout / SI)).toNat % N) % N) p ∧
            callsOf s p = []) ∧
        (max 1 (timeout / SI) < (ops.count .tick : Int) →
          (∀ i, ¬ InSlot s i p) ∧ callsOf s p = [⟨p, f, d⟩])) ∧
      (.del (some p) ∈ ops → (∀ i, ¬ InSlot s i p) ∧ callsOf s p = []) := by
  have htimeout : ¬ timeout < 0 := by
    intro hneg
    rw [addTimer, if_pos hneg] at hreturned
    cases hreturned
  have hticks := ticksOf_eq htimeout
  obtain ⟨h₀, ht₀⟩ := tracks_reachable hbefore
  obtain ⟨h₁, ht₁, hpending, halive⟩ := ht₀.added htimeout hadd
  have hslot : (s₀.wheel.curSlot + (max 1 (timeout / SI)).toNat % N) % N =
      (slotAfter h₀.wheel.cur (ticksOf timeout) : Nat) := by
    rw [← hticks, ht₀.holds.wheel, Int.toNat_natCast]
    rfl
  refine ⟨?_, ?_, ?_⟩
  · have ht := ht₁.trace hafter
    refine ⟨fun op hop => ?_, fun i hi => ⟨_, ht.holds.slotTimers ⟨i, hi⟩⟩⟩
    obtain ⟨s', called, happly, -, -⟩ := ht.serve hop
    exact ⟨s', hop, happly⟩
  · intro hkeep
    obtain ⟨h', ht', hearly, hlate⟩ := ht₁.run_pending hpending halive hafter hkeep
    constructor
    · intro hle
      rw [hslot]
      exact ht'.pending (hearly (by omega))
    · intro hlt
      exact ht'.settled (hlate (by omega))
  · intro hdel
    obtain ⟨h', ht', hsettled⟩ := ht₁.run_deleted hpending halive hafter hdel
    exact ht'.settled hsettled

/-- A timer of a timeout of one second is called by the second tick. -/
theorem fires_once_on_time_two : ∃ s₁ s, Step .ignored .create (.add 1 1 7 8) s₁ ∧
    Trace (Step .ignored) s₁ [.tick, .tick] s ∧ (∀ i, ¬ InSlot s i 1) ∧ callsOf s 1 = [⟨1, 7, 8⟩] := by
  have hfree : Admissible .create (.add 1 1 7 8) := rfl
  obtain ⟨s₁, -, hadd, ht₁, -⟩ := tracks_create.serve hfree
  obtain ⟨s₂, -, htick, ht₂, -⟩ := ht₁.serve (show Admissible s₁ .tick from trivial)
  obtain ⟨s₃, -, htick', -, -⟩ := ht₂.serve (show Admissible s₂ .tick from trivial)
  have hafter : Trace (Step .ignored) s₁ [.tick, .tick] s₃ :=
    .cons ⟨trivial, htick⟩ (.cons ⟨trivial, htick'⟩ (.nil s₃))
  exact ⟨s₁, s₃, ⟨hfree, hadd⟩, hafter,
    ((fires_once_on_time (.nil _) rfl ⟨hfree, hadd⟩ hafter).2.1 (by decide)).2 (by decide)⟩

end ServerListings.Analysis.WheelTiming
