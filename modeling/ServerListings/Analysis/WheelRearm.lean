import ServerListings.Analysis.WheelTiming
import ServerListings.Interface.WheelCallbacks

/-!
# A timer that a callback adds

Lifetimes are left aside. A callback runs before `tick` moves the hand on, so a timer that it
adds is one advance nearer when that `tick` returns (`Settled.insertDuring`). It is as punctual
as any other, unless its delay is a number of full turns. Then it is put in front of the slot
that is being walked, where the walk does not come any more, and it is a whole turn late.
-/

set_option autoImplicit false

namespace ServerListings.Analysis.WheelRearm

open Lib.CMem Lib.ObjectStore Lib.TimingWheel Lib.Transition ServerListings.Model
open ServerListings.Model.TimeWheel ServerListings.Interface.WheelSlots
open ServerListings.Interface.WheelOps ServerListings.Interface.WheelRules
open ServerListings.Analysis.WheelTiming

/-- The calls that a program may make: those of before, and `tick` when `new` gives the callbacks
addresses where no objects are. -/
def MayCall (s : WheelState) : RearmOp → Prop
  | .call op => Admissible s op
  | .tick callbacks => ∀ w m, FreshAdds m (callbacks w m)

def StepCalling (s : WheelState) (op : RearmOp) (s' : WheelState) : Prop :=
  MayCall s op ∧ ∃ added, s.applyCalling .ignored op = .ok (s', added)

/-- How far a call moves the hand. -/
def advances : RearmOp → Nat
  | .call .tick => 1
  | .call _ => 0
  | .tick _ => 1

def advancesOf (ops : List RearmOp) : Nat := (ops.map advances).sum

/-- All calls return, and the timer is called by the `tick` that starts when the hand has moved
on `max 1 (timeout / SI)` times since the addition, and by no other. The state `s₁` is the one
behind the `tick` in which it was added. -/
def Punctual (s₁ : WheelState) (b : WheelAdd) : Prop :=
  ∀ ops s, Trace StepCalling s₁ ops s → .call (.del (some b.p)) ∉ ops →
    (∀ op, MayCall s op → ∃ s', StepCalling s op s') ∧
      callsOf s b.p =
        if max 1 (b.timeout / SI) < 1 + (advancesOf ops : Int) then [⟨b.p, b.cbFunc, b.userData⟩] else []

section Runs

variable {s s' : WheelState} {h h' : History N TimerCall} {op : RearmOp} {ops : List RearmOp}
  {p : Ptr} {x : TimerCall} {i : Fin N} {n : Nat} {callbacks : WheelCallbacks}
  {added : List WheelAdd} {b : WheelAdd}

/-- What a call makes of a waiting timer that it does not delete. -/
def Moves (h' : History N TimerCall) (i : Fin N) (x : TimerCall) (n k : Nat) : Prop :=
  (k ≤ n → Pending (·.timer) h' i x (n - k)) ∧ (n < k → Settled (·.timer) h' x.timer [x])

/-- What a call does to the abstract wheel, as far as it concerns timers in the store. -/
structure StepEffect (s : WheelState) (h : History N TimerCall) (op : RearmOp) (s' : WheelState)
    (h' : History N TimerCall) : Prop where
  tracks : Tracks s' h'
  keeps : ∀ p, s.memory.nodes p ≠ none → s'.memory.nodes p ≠ none
  pending : ∀ i x n, Pending (·.timer) h i x n → s.memory.nodes x.timer ≠ none →
    op ≠ .call (.del (some x.timer)) → Moves h' i x n (advances op)
  settled : ∀ p records, Settled (·.timer) h p records → s.memory.nodes p ≠ none →
    Settled (·.timer) h' p records

/-- The ticks of an operation are its moves of the wheel. -/
theorem ticks_opsOf (op : WheelOp) : ticks (opsOf op) = advances (.call op) := by
  have hticks := ticks_flatMap [op]
  rw [List.flatMap_cons, List.flatMap_nil, List.append_nil] at hticks
  rw [hticks]
  cases op <;> rfl

/-- A call with callbacks that leave the wheel alone. -/
theorem call_effect {op : WheelOp} (ht : Tracks s h) (hop : Admissible s op) :
    ∃ s', s.applyCalling .ignored (.call op) = .ok (s', []) ∧
      StepEffect s h (.call op) s' (h.run (·.timer) (opsOf op)) := by
  obtain ⟨s', called, happly, htracks, hserved⟩ := ht.serve hop
  have hnot : ∀ p, s.memory.nodes p ≠ none → ¬ Makes op p := by
    intro p hp hmakes
    cases op with
    | add q timeout f d =>
      obtain ⟨rfl, -⟩ := hmakes
      exact hp hop
    | del timer => exact hmakes
    | tick => exact hmakes
  refine ⟨s', ?_, htracks, fun p => hserved.keeps, ?_, ?_⟩
  · rw [WheelState.applyCalling, happly]
    rfl
  · intro i x n hp halive hkeep
    rw [Moves, ← ticks_opsOf]
    apply hp.run
    intro o ho hc
    rcases concerns_opsOf ho hc with hmakes | rfl
    · exact hnot _ halive hmakes
    · exact hkeep rfl
  · intro p records hs halive
    apply Settled.run hs
    intro y e hmem hy
    rcases concerns_opsOf hmem (p := p) hy with hmakes | rfl
    · exact hnot p halive hmakes
    · have hone : Op.insert y e ∈ [Op.remove p] := hmem
      obtain heq := List.mem_singleton.mp hone
      cases heq

/-- A timer that was there is not one of those that were added. -/
theorem Grown.other {m m' : WheelMemory} (hg : Grown m m' added) (hp : m.nodes p ≠ none) :
    ∀ y ∈ insertsOf added, y.1.timer ≠ p := by
  rintro y hy rfl
  exact hp (hg.fresh y hy).1

/-- A tick whose callbacks add timers is one of the wheel with insertions. -/
theorem tracks_advance (ht : Tracks s h) (hholds : Holds s' (h.wheel.advanceInserting (insertsOf added)))
    (hcalls : s'.memory.calls = s.memory.calls ++ h.wheel.fired) (hg : Grown s.memory s'.memory added) :
    Tracks s' (h.advanceInserting (insertsOf added)) := by
  refine ⟨hholds, ?_, ?_⟩
  · rw [hcalls, ht.log]
    rfl
  · intro c hc
    rw [hcalls, List.mem_append] at hc
    rcases hc with hc | hc
    · exact hg.keeps _ (ht.known c hc)
    · exact hg.keeps _ (Holds.fired_known ht.holds c hc)

/-- A `tick` whose callbacks add timers. -/
theorem tick_effect (ht : Tracks s h) (hcb : ∀ w m, FreshAdds m (callbacks w m)) :
    ∃ s' added, s.applyCalling .ignored (.tick callbacks) = .ok (s', added) ∧
      StepEffect s h (.tick callbacks) s' (h.advanceInserting (insertsOf added)) ∧
      Grown s.memory s'.memory added := by
  obtain ⟨s', added, happly, hholds, hcalls, hg⟩ := Holds.tickCalling ht.holds hcb
  refine ⟨s', added, happly, ⟨tracks_advance ht hholds hcalls hg, hg.keeps, ?_, ?_⟩, hg⟩
  · intro i x n hp halive _
    cases n with
    | zero => exact ⟨fun hle => absurd hle (Nat.not_succ_le_zero 0), fun _ => hp.fireInserting (Grown.other hg halive)⟩
    | succ n => exact ⟨fun _ => hp.advanceInserting (Grown.other hg halive), fun hlt => absurd hlt (by simp [advances])⟩
  · intro p records hs halive
    exact hs.advanceInserting (Grown.other hg halive)

/-- Every call that a program may make returns. -/
theorem step_effect (ht : Tracks s h) (hop : MayCall s op) :
    ∃ s' h', StepCalling s op s' ∧ StepEffect s h op s' h' := by
  cases op with
  | call op =>
    obtain ⟨s', happly, heff⟩ := call_effect ht hop
    exact ⟨s', _, ⟨hop, [], happly⟩, heff⟩
  | tick callbacks =>
    obtain ⟨s', added, happly, heff, -⟩ := tick_effect ht hop
    exact ⟨s', _, ⟨hop, added, happly⟩, heff⟩

/-- A step has one result. -/
theorem step_unique {s₁ s₂ : WheelState} (h₁ : StepCalling s op s₁) (h₂ : StepCalling s op s₂) :
    s₁ = s₂ := by
  obtain ⟨-, a₁, h₁⟩ := h₁
  obtain ⟨-, a₂, h₂⟩ := h₂
  exact (results_unique h₁ h₂).1

/-- Every step has its effect on the history. -/
theorem step_tracks (ht : Tracks s h) (hstep : StepCalling s op s') :
    ∃ h', StepEffect s h op s' h' := by
  obtain ⟨s₁, h', hstep₁, heff⟩ := step_effect ht hstep.1
  obtain rfl := step_unique hstep hstep₁
  exact ⟨h', heff⟩

/-- Every reachable wheel has a history. -/
theorem reachable_tracks (hrun : Trace StepCalling .create ops s) : ∃ h, Tracks s h := by
  apply hrun.invariant
  · exact ⟨_, tracks_create⟩
  · intro s op s' hs hstep
    obtain ⟨h, ht⟩ := hs
    obtain ⟨h', heff⟩ := step_tracks ht hstep
    exact ⟨h', heff.tracks⟩

/-- A timer that is in no slot stays there while its object is in the store. -/
theorem run_settled {records : List TimerCall} (htrace : Trace StepCalling s ops s') :
    ∀ {h : History N TimerCall}, Tracks s h → s.memory.nodes p ≠ none →
      Settled (·.timer) h p records → ∃ h', Tracks s' h' ∧ Settled (·.timer) h' p records := by
  induction htrace with
  | nil s =>
    intro h ht _ hs
    exact ⟨h, ht, hs⟩
  | cons hstep _ ih =>
    intro h ht halive hs
    obtain ⟨h₁, heff⟩ := step_tracks ht hstep
    exact ih heff.tracks (heff.keeps p halive) (heff.settled p records hs halive)

/-- What a run makes of a waiting timer that it does not delete. -/
theorem run_moves (htrace : Trace StepCalling s ops s') :
    ∀ {h : History N TimerCall} {n : Nat}, Tracks s h → s.memory.nodes x.timer ≠ none →
      Pending (·.timer) h i x n → .call (.del (some x.timer)) ∉ ops →
      ∃ h', Tracks s' h' ∧ Moves h' i x n (advancesOf ops) := by
  induction htrace with
  | nil s =>
    intro h n ht _ hp _
    exact ⟨h, ht, fun _ => hp, fun hlt => absurd hlt (Nat.not_lt_zero n)⟩
  | @cons s s₁ s' op ops hstep hrest ih =>
    intro h n ht halive hp hkeep
    rw [List.mem_cons, not_or] at hkeep
    obtain ⟨h₁, heff⟩ := step_tracks ht hstep
    obtain ⟨hearly, hlate⟩ := heff.pending i x n hp halive (Ne.symm hkeep.1)
    have hsum : advancesOf (op :: ops) = advances op + advancesOf ops := rfl
    rcases Nat.lt_or_ge n (advances op) with hlt | hge
    · obtain ⟨h', ht', hs⟩ := run_settled hrest heff.tracks (heff.keeps _ halive) (hlate hlt)
      exact ⟨h', ht', fun hle => absurd hle (by omega), fun _ => hs⟩
    · obtain ⟨h', ht', hearly', hlate'⟩ := ih heff.tracks (heff.keeps _ halive) (hearly hge) hkeep.2
      refine ⟨h', ht', ?_, ?_⟩
      · intro hle
        have hdiff : n - advancesOf (op :: ops) = n - advances op - advancesOf ops := by omega
        rw [hdiff]
        exact hearly' (by omega)
      · intro hlt
        exact hlate' (by omega)

/-- The hand can always be moved on. -/
theorem exists_ticks (ht : Tracks s h) (n : Nat) (p : Ptr) :
    ∃ ops s', Trace StepCalling s ops s' ∧ advancesOf ops = n ∧ .call (.del (some p)) ∉ ops := by
  induction n generalizing s h with
  | zero => exact ⟨[], s, .nil s, rfl, List.not_mem_nil⟩
  | succ n ih =>
    obtain ⟨s₁, h₁, hstep, heff⟩ := @step_effect _ _ (.call .tick) ht trivial
    obtain ⟨ops, s', htrace, hcount, hkeep⟩ := ih heff.tracks
    refine ⟨.call .tick :: ops, s', .cons hstep htrace, ?_, ?_⟩
    · rw [← hcount, Nat.add_comm]
      rfl
    · intro hmem
      rcases List.mem_cons.mp hmem with heq | hmem
      · cases heq
      · exact hkeep hmem

/-! ## The timers that callbacks add -/

/-- How many more advances a timer waits behind the one in which it was added. -/
def waits (d : Nat) : Nat := if d % N = 0 then d + N - 1 else d - 1

/-- A timer waits for one tick at least. -/
theorem ticksOf_pos (timeout : Int) (htimeout : ¬ timeout < 0) : 1 ≤ ticksOf timeout := by
  have heq := ticksOf_eq htimeout
  omega

/-- A timer that a callback has added is pending after the tick. -/
theorem added_pending (ht : Tracks s h) (hcb : ∀ w m, FreshAdds m (callbacks w m))
    (htick : s.applyCalling .ignored (.tick callbacks) = .ok (s', added)) (hb : b ∈ added)
    (htimeout : ¬ b.timeout < 0) :
    ∃ h' i, Tracks s' h' ∧ s'.memory.nodes b.p ≠ none ∧
      Pending (·.timer) h' i ⟨b.p, b.cbFunc, b.userData⟩ (waits (ticksOf b.timeout)) := by
  obtain ⟨s₁, added₁, happly, heff, hg⟩ := tick_effect ht hcb
  obtain ⟨rfl, rfl⟩ := results_unique happly htick
  have hmem : (⟨b.p, b.cbFunc, b.userData⟩, ticksOf b.timeout) ∈ insertsOf added₁ :=
    List.mem_filterMap.mpr ⟨b, hb, insertOf_made htimeout⟩
  obtain ⟨xs, ys, hsplit⟩ := List.append_of_mem hmem
  have hdistinct := hg.distinct
  rw [hsplit, List.map_append, List.map_cons, List.nodup_middle, List.nodup_cons, List.mem_append,
    not_or] at hdistinct
  obtain ⟨⟨hxs, hys⟩, -⟩ := hdistinct
  obtain ⟨hfree, halive⟩ := hg.fresh _ hmem
  refine ⟨_, slotAfter h.wheel.cur (ticksOf b.timeout), heff.tracks, halive, ?_⟩
  rw [hsplit]
  apply Settled.insertDuring
  · exact ht.fresh hfree
  · exact ticksOf_pos _ htimeout
  · intro y hy heq
    exact hxs (heq ▸ List.mem_map_of_mem hy)
  · intro y hy heq
    exact hys (heq ▸ List.mem_map_of_mem hy)

/-- The calls of the callback of a waiting timer. -/
theorem moves_calls {k : Nat} (ht : Tracks s h') (hm : Moves h' i x n k) :
    callsOf s x.timer = if n < k then [x] else [] := by
  obtain ⟨hearly, hlate⟩ := hm
  by_cases hlt : n < k
  · rw [if_pos hlt]
    exact (ht.settled (hlate hlt)).2
  · rw [if_neg hlt]
    exact (ht.pending (hearly (Nat.not_lt.mp hlt))).2

end Runs

section Delays

variable {s₁ : WheelState} {h₁ : History N TimerCall} {i : Fin N} {b : WheelAdd}

/-- When the timer is called. -/
theorem rearmed_calls (ht₁ : Tracks s₁ h₁) (halive : s₁.memory.nodes b.p ≠ none)
    (hpending : Pending (·.timer) h₁ i ⟨b.p, b.cbFunc, b.userData⟩ (waits (ticksOf b.timeout)))
    {ops : List RearmOp} {s : WheelState} (htrace : Trace StepCalling s₁ ops s)
    (hkeep : .call (.del (some b.p)) ∉ ops) :
    (∀ op, MayCall s op → ∃ s', StepCalling s op s') ∧
      callsOf s b.p =
        if waits (ticksOf b.timeout) < advancesOf ops then [⟨b.p, b.cbFunc, b.userData⟩] else [] := by
  obtain ⟨h', ht', hmoves⟩ := run_moves htrace ht₁ halive hpending hkeep
  refine ⟨?_, moves_calls ht' hmoves⟩
  intro op hop
  obtain ⟨s', -, hstep, -⟩ := step_effect ht' hop
  exact ⟨s', hstep⟩

/-- A timer whose delay is a number of full turns is not called when it is due. -/
theorem late_of_full_turns (ht₁ : Tracks s₁ h₁) (halive : s₁.memory.nodes b.p ≠ none)
    (hpending : Pending (·.timer) h₁ i ⟨b.p, b.cbFunc, b.userData⟩ (waits (ticksOf b.timeout)))
    (htimeout : ¬ b.timeout < 0) (hfull : ticksOf b.timeout % N = 0) : ¬ Punctual s₁ b := by
  intro hpunctual
  have hticks := ticksOf_eq htimeout
  obtain ⟨ops, s, htrace, hcount, hkeep⟩ := exists_ticks ht₁ (ticksOf b.timeout) b.p
  have hcalls := (rearmed_calls ht₁ halive hpending htrace hkeep).2
  have hlate : ¬ waits (ticksOf b.timeout) < advancesOf ops := by
    have hN : 0 < N := by decide
    rw [waits, if_pos hfull, hcount]
    omega
  rw [if_neg hlate] at hcalls
  have hcalled := (hpunctual ops s htrace hkeep).2
  rw [hcalls, if_pos (by omega)] at hcalled
  cases hcalled

/-- A timer whose time is no whole number of turns is called in time. -/
theorem punctual_of_part_turn (ht₁ : Tracks s₁ h₁) (halive : s₁.memory.nodes b.p ≠ none)
    (hpending : Pending (·.timer) h₁ i ⟨b.p, b.cbFunc, b.userData⟩ (waits (ticksOf b.timeout)))
    (htimeout : ¬ b.timeout < 0) (hpart : ¬ ticksOf b.timeout % N = 0) : Punctual s₁ b := by
  intro ops s htrace hkeep
  have hticks := ticksOf_eq htimeout
  have hpos := ticksOf_pos _ htimeout
  obtain ⟨hreturns, hcalls⟩ := rearmed_calls ht₁ halive hpending htrace hkeep
  refine ⟨hreturns, ?_⟩
  rw [waits, if_neg hpart] at hcalls
  rw [hcalls, ← hticks]
  apply if_congr _ rfl rfl
  omega

end Delays

/-- The timer that a callback adds is punctual unless its delay is a number of full turns. -/
theorem rearmed_punctual_iff {before : List RearmOp} {s₀ s₁ : WheelState} {callbacks : WheelCallbacks}
    {added : List WheelAdd} {b : WheelAdd} (hbefore : Trace StepCalling .create before s₀)
    (hcb : ∀ w m, FreshAdds m (callbacks w m))
    (htick : s₀.applyCalling .ignored (.tick callbacks) = .ok (s₁, added)) (hb : b ∈ added)
    (htimeout : 0 ≤ b.timeout) :
    Punctual s₁ b ↔ ¬ (N : Int) ∣ max 1 (b.timeout / SI) := by
  have hnonneg : ¬ b.timeout < 0 := not_lt.mpr htimeout
  obtain ⟨h₀, ht₀⟩ := reachable_tracks hbefore
  obtain ⟨h₁, i, ht₁, halive, hpending⟩ := added_pending ht₀ hcb htick hb hnonneg
  rw [← ticksOf_eq hnonneg, Int.natCast_dvd_natCast, Nat.dvd_iff_mod_eq_zero]
  constructor
  · intro hpunctual hfull
    exact late_of_full_turns ht₁ halive hpending hnonneg hfull hpunctual
  · intro hpart
    exact punctual_of_part_turn ht₁ halive hpending hnonneg hpart

/-- Callbacks that add one timer of the given timeout at the address `2`. -/
def addSecond (timeout : Int) : WheelCallbacks := fun _ m =>
  if m.nodes 2 = none then [⟨2, timeout, 9, 10⟩] else []

/-- The callback of the example adds a new timer. -/
theorem addSecond_fresh (timeout : Int) (w : TimeWheel) (m : WheelMemory) :
    FreshAdds m (addSecond timeout w m) := by
  unfold addSecond
  by_cases hfree : m.nodes 2 = none
  · rw [if_pos hfree]
    refine ⟨List.nodup_singleton _, ?_⟩
    intro a ha
    obtain rfl := List.mem_singleton.mp ha
    exact hfree
  · rw [if_neg hfree]
    exact ⟨List.nodup_nil, fun a ha => absurd ha List.not_mem_nil⟩

/-- A timer of 61 seconds, added by the callback of a timer of one second. -/
theorem rearmed_punctual_part : ∃ s₀ s₁,
    Trace StepCalling .create [.call (.add 1 1 7 8), .call .tick] s₀ ∧
      s₀.applyCalling .ignored (.tick (addSecond 61)) = .ok (s₁, [⟨2, 61, 9, 10⟩]) ∧
      Punctual s₁ ⟨2, 61, 9, 10⟩ := by
  have htrace : Trace StepCalling .create [.call (.add 1 1 7 8), .call .tick] _ :=
    .cons ⟨rfl, [], rfl⟩ (.cons ⟨trivial, [], rfl⟩ (.nil _))
  refine ⟨_, _, htrace, rfl, ?_⟩
  exact (rearmed_punctual_iff htrace (addSecond_fresh 61) rfl (List.mem_singleton_self _)
    (by decide)).mpr (by decide)

/-- A timer of 60 seconds in its place is late. -/
theorem rearmed_not_always :
    ¬ ∀ (before : List RearmOp) (s₀ s₁ : WheelState) (callbacks : WheelCallbacks)
      (added : List WheelAdd) (b : WheelAdd), Trace StepCalling .create before s₀ →
      (∀ w m, FreshAdds m (callbacks w m)) →
      s₀.applyCalling .ignored (.tick callbacks) = .ok (s₁, added) → b ∈ added → 0 ≤ b.timeout →
      Punctual s₁ b := by
  intro hall
  have htrace : Trace StepCalling .create [.call (.add 1 1 7 8), .call .tick] _ :=
    .cons ⟨rfl, [], rfl⟩ (.cons ⟨trivial, [], rfl⟩ (.nil _))
  have hmem : (⟨2, 60, 9, 10⟩ : WheelAdd) ∈ [(⟨2, 60, 9, 10⟩ : WheelAdd)] := List.mem_singleton_self _
  have hpunctual := hall _ _ _ _ _ _ htrace (addSecond_fresh 60) rfl hmem (by decide)
  obtain ⟨h₀, ht₀⟩ := reachable_tracks htrace
  obtain ⟨h₁, i, ht₁, halive, hpending⟩ := added_pending ht₀ (addSecond_fresh 60) rfl hmem (by decide)
  exact late_of_full_turns ht₁ halive hpending (by decide) (by decide) hpunctual

end ServerListings.Analysis.WheelRearm
