import ServerListings.Interface.WheelRuns
import ServerListings.Model.TimeWheelCallbacks

/-!
# The time wheel when callbacks add timers

The rules for `tick` with callbacks that call `add_timer`, lifetimes left aside. While the walk
is under way the wheel holds an abstract wheel whose current slot has what was added in front,
the timers passed and the timers still to come (`walking`). What is added lies in front of the
walk, so the walk meets none of it, and the wheel that the hand leaves is
`Wheel.advanceInserting`.
-/

set_option autoImplicit false

namespace ServerListings.Interface.WheelRules

open Lib.CMem Lib.ObjectStore Lib.DoublyLinked Lib.TimingWheel Lib.Transition ServerListings.Model
open ServerListings.Model.TimeWheel ServerListings.Interface.WheelSlots
open ServerListings.Interface.WheelOps

/-- `new` gives the calls of `add_timer` different addresses where no objects are. -/
def FreshAdds (m : WheelMemory) (adds : List WheelAdd) : Prop :=
  (adds.map (·.p)).Nodup ∧ ∀ a ∈ adds, m.nodes a.p = none

/-- What the calls of `add_timer` put into the abstract wheel. -/
def insertOf (a : WheelAdd) : Option (TimerCall × Nat) :=
  if a.timeout < 0 then none else some (⟨a.p, a.cbFunc, a.userData⟩, ticksOf a.timeout)

def insertsOf (adds : List WheelAdd) : List (TimerCall × Nat) := adds.filterMap insertOf

/-- The wheel while the walk is under way: the current slot of `f` has the list `l`, and
`xs` were put in. -/
def walking (f : Fin N → List (TimerCall × Nat)) (cur : Fin N) (l : List (TimerCall × Nat))
    (xs : List (TimerCall × Nat)) : Agenda :=
  Wheel.insertAll ⟨Function.update f cur l, cur⟩ xs

section Rules

variable {m m' : WheelMemory} {w : TimeWheel} {a : Agenda} {f : Fin N → List (TimerCall × Nat)}
  {cur : Fin N} {l l' pre q d xs : List (TimerCall × Nat)} {x : TimerCall} {r n : Nat} {p : Ptr}
  {adds added : List WheelAdd} {callbacks : WheelCallbacks} {s s' : WheelState}

/-- The insertions of two lists of additions. -/
theorem insertsOf_append (adds adds' : List WheelAdd) :
    insertsOf (adds ++ adds') = insertsOf adds ++ insertsOf adds' := List.filterMap_append

/-- While the slot is walked through, the wheel stands still. -/
theorem walking_cur : (walking f cur l xs).cur = cur := Wheel.insertAll_cur ..

/-- While the slot is walked through, it has the entries that are left behind the new ones. -/
theorem walking_slot : (walking f cur l xs).slots cur = pushed cur xs cur ++ l := by
  unfold walking
  rw [Wheel.insertAll_slots]
  simp only [Function.update_self]

/-- More insertions while the slot is walked through. -/
theorem walking_insertAll (ys : List (TimerCall × Nat)) :
    (walking f cur l xs).insertAll ys = walking f cur l (xs ++ ys) :=
  (Wheel.insertAll_append _ xs ys).symm

/-- The list of the current slot behind what was put in is replaced. -/
theorem walking_replace : (⟨Function.update (walking f cur l xs).slots cur (pushed cur xs cur ++ l'),
    cur⟩ : Agenda) = walking f cur l' xs := by
  have hcur : (walking f cur l' xs).cur = cur := walking_cur
  have hslots : Function.update (walking f cur l xs).slots cur (pushed cur xs cur ++ l') =
      (walking f cur l' xs).slots := by
    funext j
    by_cases hj : j = cur
    · subst hj
      rw [Function.update_self, walking_slot]
    · rw [Function.update_of_ne hj]
      unfold walking
      rw [Wheel.insertAll_slots, Wheel.insertAll_slots]
      simp only [Function.update_of_ne hj]
  rw [hslots]
  cases hw : walking f cur l' xs
  rw [hw] at hcur
  subst hcur
  rfl

/-! ## The statements of the walk -/

/-- The calls that were made are not seen in the wheel. -/
theorem Holds.with_calls (h : Holds ⟨w, m⟩ a) (calls : List TimerCall) :
    Holds ⟨w, { m with calls := calls }⟩ a :=
  ⟨h.wheel, fun i => (h.slot i).congr fun _ _ => rfl, h.made⟩

/-- A timer of the current slot makes a turn. -/
theorem Holds.turn (h : Holds ⟨w, m⟩ a) (hq : a.slots a.cur = pre ++ (x, r + 1) :: q) :
    ∃ t m₁ t₁, m.nodes x.timer = some t ∧ t.rotation = r + 1 ∧
      m.write (some x.timer) (fun u => { u with rotation := u.rotation - 1 }) = .ok m₁ ∧
      m₁.nodes x.timer = some t₁ ∧ t₁.next = (timers q).head? ∧
      Holds ⟨w, m₁⟩ ⟨Function.update a.slots a.cur (pre ++ (x, r) :: q), a.cur⟩ ∧
      Effect .ignored m m₁ [] [] := by
  have hlist := h.slot a.cur
  rw [hq] at hlist
  obtain ⟨t, ht, hrot, hslot, hcb, hdata, -, -⟩ := hlist.deref
  obtain ⟨m₁, hw, h₁, he, ho⟩ := rewrite_spec (k := .ignored) (g := (x, r)) hlist
    (fun u => { u with rotation := u.rotation - 1 }) (fun _ => ⟨rfl, rfl⟩) rfl (by
      intro t' ht'
      obtain rfl := Option.some.inj (ht.symm.trans ht')
      simp only [hrot, hslot, hcb, hdata, Nat.add_sub_cancel])
  obtain ⟨t₁, ht₁, -, -, -, -, -, hnext⟩ := h₁.deref
  refine ⟨t, m₁, t₁, ht, hrot, hw, ht₁, hnext, ?_, he⟩
  have hout : Outside m m₁ (timers (a.slots a.cur)) := by
    apply ho.mono
    intro p hp
    rw [List.mem_singleton.mp hp, hq, timers_middle]
    exact List.mem_append_right _ List.mem_cons_self
  have hlen : (pre ++ (x, r) :: q).length ≤ (a.slots a.cur).length := by
    rw [hq, List.length_append, List.length_append]
    rfl
  have hheads : Function.update (fun j => (timers (a.slots j)).head?) a.cur
      (timers (pre ++ (x, r) :: q)).head? = fun j => (timers (a.slots j)).head? := by
    apply Function.update_eq_self_iff.mpr
    rw [hq, timers_middle, timers_middle]
  have hholds := h.replace h₁ hout hlen he.made a.cur
  rw [hheads, ← h.wheel] at hholds
  exact hholds

/-- The timer that the walk stands at is called. -/
theorem Holds.call (h : Holds ⟨w, m⟩ a) (hq : a.slots a.cur = pre ++ (x, 0) :: q) :
    ∃ t, m.nodes x.timer = some t ∧ t.rotation = 0 ∧
      m.callBack (some x.timer) = .ok { m with calls := m.calls ++ [x] } := by
  have hlist := h.slot a.cur
  rw [hq] at hlist
  obtain ⟨t, ht, hrot, -⟩ := hlist.deref
  refine ⟨t, ht, hrot, ?_⟩
  exact callBack_spec (hlist.entries (x, 0) (List.mem_append_right _ List.mem_cons_self))

/-- The timer that was called is unlinked, and the walk goes on with its successor. -/
theorem Holds.removeExpired (h : Holds ⟨w, m⟩ a) (hq : a.slots a.cur = pre ++ (x, r) :: q) :
    ∃ w' m', TimeWheel.removeExpired .ignored w m (some x.timer) = .ok (w', m', (timers q).head?) ∧
      Holds ⟨w', m'⟩ ⟨Function.update a.slots a.cur (pre ++ q), a.cur⟩ ∧
      Effect .ignored m m' [] [x.timer] := by
  have hlist := h.slot a.cur
  rw [hq] at hlist
  obtain ⟨t, ht, -, -, -, -, -, hnext⟩ := hlist.deref
  have hlen : (pre ++ q).length ≤ (a.slots a.cur).length := by
    rw [hq, List.length_append, List.length_append, List.length_cons]
    omega
  have hwheel : w = ⟨List.ofFn fun i => (timers (a.slots i)).head?, a.cur⟩ := h.wheel
  have hload : load (List.ofFn fun i => (timers (a.slots i)).head?) a.cur =
      .ok (timers (pre ++ (x, r) :: q)).head? := by
    rw [load_ofFn, hq]
  rcases List.eq_nil_or_concat pre with rfl | ⟨c, u, rfl⟩
  · obtain ⟨m₁, m₂, hd, hw, hrest, he, ho⟩ := deleteClear_spec .ignored hlist
    refine ⟨_, m₂, ?_, h.replace hrest (hq ▸ ho) hlen he.made a.cur, he⟩
    rw [TimeWheel.removeExpired, hwheel]
    simp only
    have hhead : (timers ([] ++ (x, r) :: q)).head? = some x.timer := rfl
    rw [hload, ok_bind, hhead, if_pos rfl, deref_present ht, ok_bind, setSlot, store_ofFn, ok_bind]
    simp only [pure, Except.pure, ok_bind]
    rw [hd, ok_bind, load_ofFn, ok_bind, Function.update_self, hnext, hw, ok_bind]
  · rw [List.concat_eq_append] at *
    obtain ⟨m₁, m₂, hu, ht₁, hd, hrest, he, ho⟩ := unlinkDelete_spec .ignored hlist ht
    have hholds := h.replace hrest (hq ▸ ho) hlen he.made a.cur
    rw [heads_behind hq, ← hwheel] at hholds
    refine ⟨w, m₂, ?_, hholds, he⟩
    rw [TimeWheel.removeExpired]
    rw [hwheel]
    simp only
    rw [hload, ok_bind, if_neg (ne_head_behind hlist), hu, ok_bind, deref_present ht₁, ok_bind, hd, ok_bind, hnext,
      delete_successor hrest (fun hk => by cases hk)]
    rfl

/-! ## What a callback adds -/

/-- A negative time is refused. -/
theorem insertOf_refused {b : WheelAdd} (hneg : b.timeout < 0) : insertOf b = none := if_pos hneg

/-- A time that is not negative gives an insertion. -/
theorem insertOf_made {b : WheelAdd} (hneg : ¬ b.timeout < 0) :
    insertOf b = some (⟨b.p, b.cbFunc, b.userData⟩, ticksOf b.timeout) := if_neg hneg

/-- What calls of `add_timer` do to the objects: none goes away, and there are new ones at the
addresses of the timers that were made. -/
structure Grown (m m' : WheelMemory) (adds : List WheelAdd) : Prop where
  keeps : ∀ p, m.nodes p ≠ none → m'.nodes p ≠ none
  fresh : ∀ y ∈ insertsOf adds, m.nodes y.1.timer = none ∧ m'.nodes y.1.timer ≠ none
  distinct : ((insertsOf adds).map (·.1.timer)).Nodup

/-- Where no timer is added the objects are still there. -/
theorem grown_nil (h : ∀ p, m.nodes p ≠ none → m'.nodes p ≠ none) : Grown m m' [] :=
  ⟨h, fun _ hy => absurd hy List.not_mem_nil, List.nodup_nil⟩

/-- The addresses of later timers are free while the earlier ones are in the store. -/
theorem Grown.append {m'' : WheelMemory} {adds' : List WheelAdd} (h : Grown m m' adds)
    (h' : Grown m' m'' adds') : Grown m m'' (adds ++ adds') := by
  constructor
  · intro p hp
    exact h'.keeps p (h.keeps p hp)
  · intro y hy
    rw [insertsOf_append, List.mem_append] at hy
    rcases hy with hy | hy
    · exact ⟨(h.fresh y hy).1, h'.keeps _ (h.fresh y hy).2⟩
    · refine ⟨?_, (h'.fresh y hy).2⟩
      by_contra halive
      exact h.keeps _ halive (h'.fresh y hy).1
  · rw [insertsOf_append, List.map_append]
    apply List.nodup_append.mpr
    refine ⟨h.distinct, h'.distinct, ?_⟩
    intro p hp r hr heq
    obtain ⟨y, hy, rfl⟩ := List.mem_map.mp hp
    obtain ⟨z, hz, rfl⟩ := List.mem_map.mp hr
    exact (h.fresh y hy).2 (heq ▸ (h'.fresh z hz).1)

/-- One call of `add_timer` in a callback. -/
theorem Holds.addOne (h : Holds s a) {b : WheelAdd} (hfresh : s.memory.nodes b.p = none) :
    ∃ s', s.apply .ignored (.add b.p b.timeout b.cbFunc b.userData) = .ok s' ∧
      Holds s' (a.insertAll (insertsOf [b])) ∧ s'.memory.calls = s.memory.calls ∧
      Grown s.memory s'.memory [b] ∧ ∀ p, p ≠ b.p → s.memory.nodes p = none → s'.memory.nodes p = none := by
  by_cases hneg : b.timeout < 0
  · have hnone : insertsOf [b] = [] := by
      rw [insertsOf, List.filterMap_cons_none (insertOf_refused hneg), List.filterMap_nil]
    refine ⟨s, apply_add_refused hneg, by rw [hnone]; exact h, rfl, ?_, fun _ _ hp => hp⟩
    exact ⟨fun _ hp => hp, by rw [hnone]; exact fun _ hy => absurd hy List.not_mem_nil, by
      rw [hnone]
      exact List.nodup_nil⟩
  · have hone : insertsOf [b] = [(⟨b.p, b.cbFunc, b.userData⟩, ticksOf b.timeout)] := by
      rw [insertsOf, List.filterMap_cons_some (insertOf_made hneg), List.filterMap_nil]
    obtain ⟨s', hs', hholds, hcalls, hgone⟩ := h.add (k := .ignored) (f := b.cbFunc) (d := b.userData) hfresh hneg
    refine ⟨s', hs', by rw [hone]; exact hholds, hcalls, ⟨?_, ?_, ?_⟩, ?_⟩
    · intro p hp hnone
      exact hp ((hgone p).mp hnone).1
    · intro y hy
      rw [hone] at hy
      obtain rfl := List.mem_singleton.mp hy
      exact ⟨hfresh, fun hnone => ((hgone _).mp hnone).2 rfl⟩
    · rw [hone]
      exact List.nodup_singleton _
    · intro p hp hnone
      exact (hgone p).mpr ⟨hnone, hp⟩

/-- The calls of `add_timer` of one callback. -/
theorem Holds.runAdds (adds : List WheelAdd) : ∀ {w : TimeWheel} {m : WheelMemory} {a : Agenda},
    Holds ⟨w, m⟩ a → FreshAdds m adds →
    ∃ w' m', TimeWheel.runAdds .ignored adds w m = .ok (w', m') ∧
      Holds ⟨w', m'⟩ (a.insertAll (insertsOf adds)) ∧ m'.calls = m.calls ∧ Grown m m' adds := by
  induction adds with
  | nil =>
    intro w m a h _
    exact ⟨w, m, rfl, h, rfl, grown_nil fun _ hp => hp⟩
  | cons b adds ih =>
    intro w m a h hfresh
    obtain ⟨hdistinct, hnone⟩ := hfresh
    obtain ⟨hnot, hdistinct⟩ := List.nodup_cons.mp hdistinct
    obtain ⟨s₁, hs₁, h₁, hcalls, hgrown, hleft⟩ := h.addOne (hnone b List.mem_cons_self)
    have hfresh₁ : FreshAdds s₁.memory adds := by
      refine ⟨hdistinct, ?_⟩
      intro c hc
      apply hleft
      · intro heq
        have hmem : c.p ∈ adds.map (·.p) := List.mem_map_of_mem hc
        rw [heq] at hmem
        exact hnot hmem
      · exact hnone c (List.mem_cons_of_mem _ hc)
    obtain ⟨w', m', hrun, h', hcalls', hgrown'⟩ := ih h₁ hfresh₁
    refine ⟨w', m', ?_, ?_, hcalls'.trans hcalls, hgrown.append hgrown'⟩
    · rw [TimeWheel.runAdds, hs₁, ok_bind]
      exact hrun
    · rw [← Wheel.insertAll_append, ← insertsOf_append] at h'
      exact h'

/-! ## The walk -/

/-- What the walk leaves behind the timers `q`. -/
structure WalkedCalling (f : Fin N → List (TimerCall × Nat)) (cur : Fin N) (d q : List (TimerCall × Nat))
    (added : List WheelAdd) (m : WheelMemory) (w' : TimeWheel) (m' : WheelMemory)
    (more : List WheelAdd) : Prop where
  holds : Holds ⟨w', m'⟩ (walking f cur (d ++ turned q) (insertsOf (added ++ more)))
  calls : m'.calls = m.calls ++ expired q
  grown : Grown m m' more

/-- What `tick` does to the objects adds no timer. -/
theorem Grown.of_effect {freed : List Ptr} {calls : List TimerCall} {m'' : WheelMemory}
    (h : Grown m m' adds) (he : Effect .ignored m' m'' calls freed) : Grown m m'' adds := by
  have hkeep : ∀ p, m'.nodes p ≠ none → m''.nodes p ≠ none := by
    intro p hp hnone
    rcases (he.gone p).mp hnone with hnone | ⟨hkept, -⟩
    · exact hp hnone
    · cases hkept
  exact ⟨fun p hp => hkeep p (h.keeps p hp), fun y hy => ⟨(h.fresh y hy).1, hkeep _ (h.fresh y hy).2⟩,
    h.distinct⟩

/-- The walk has a result. It meets the timers that the slot had when it started; the induction
is on those that are left. -/
theorem tickLoopCalling_runs (hcb : ∀ w m, FreshAdds m (callbacks w m)) (q : List (TimerCall × Nat)) :
    ∀ (d : List (TimerCall × Nat)) (n : Nat) (w : TimeWheel) (m : WheelMemory) (added : List WheelAdd),
      Holds ⟨w, m⟩ (walking f cur (d ++ q) (insertsOf added)) → q.length < n →
      ∃ w' m' more, TimeWheel.tickLoopCalling .ignored callbacks n (timers q).head? w m added =
          .ok (w', m', added ++ more) ∧ WalkedCalling f cur d q added m w' m' more := by
  induction q with
  | nil =>
    intro d n w m added h hn
    obtain ⟨n, rfl⟩ := Nat.exists_eq_succ_of_ne_zero (Nat.ne_of_gt hn)
    refine ⟨w, m, [], ?_, ?_, (List.append_nil _).symm, grown_nil fun _ hp => hp⟩
    · rw [List.append_nil]
      rfl
    · rw [List.append_nil added]
      exact h
  | cons y q ih =>
    intro d n w m added h hn
    obtain ⟨n, rfl⟩ := Nat.exists_eq_succ_of_ne_zero (Nat.ne_of_gt (Nat.zero_lt_of_lt hn))
    have hn' : q.length < n := Nat.lt_of_succ_lt_succ hn
    obtain ⟨x, r⟩ := y
    have hcur : (walking f cur (d ++ (x, r) :: q) (insertsOf added)).cur = cur := walking_cur
    have hslot : (walking f cur (d ++ (x, r) :: q) (insertsOf added)).slots
        (walking f cur (d ++ (x, r) :: q) (insertsOf added)).cur =
        pushed cur (insertsOf added) cur ++ d ++ (x, r) :: q := by
      rw [hcur, walking_slot, List.append_assoc]
    rw [timers_cons, List.head?_cons, TimeWheel.tickLoopCalling]
    simp only [Option.isNone_some, Bool.false_eq_true, if_false]
    cases r with
    | succ r =>
      obtain ⟨t, m₁, t₁, ht, hrot, hw, ht₁, hnext, h₁, he⟩ := h.turn hslot
      have hpos : 0 < t.rotation := hrot ▸ Nat.succ_pos r
      rw [hcur, List.append_assoc, walking_replace, List.append_cons d] at h₁
      obtain ⟨w', m', more, hloop, hwalk⟩ := ih (d ++ [(x, r)]) n w m₁ added h₁ hn'
      refine ⟨w', m', more, ?_, ?_, ?_, ?_⟩
      · rw [deref_present ht, ok_bind, if_pos hpos, hw, ok_bind, deref_present ht₁, ok_bind, hnext]
        exact hloop
      · rw [turned_cons_succ, List.append_cons]
        exact hwalk.holds
      · rw [hwalk.calls, he.calls, List.append_nil]
        rfl
      · have hstart : Grown m m₁ [] := (grown_nil fun _ hp => hp).of_effect he
        exact hstart.append hwalk.grown
    | zero =>
      obtain ⟨t, ht, hrot, hcall⟩ := h.call hslot
      have hzero : ¬ 0 < t.rotation := by
        rw [hrot]
        exact Nat.lt_irrefl 0
      have hcalled := h.with_calls (m.calls ++ [x])
      obtain ⟨w₁, m₁, hadds, h₁, hcalls₁, hgrown₁⟩ := Holds.runAdds _ hcalled (hcb w _)
      generalize hadded : callbacks w { m with calls := m.calls ++ [x] } = adds at hadds h₁ hgrown₁
      -- what the callback adds lies in front of the walk
      rw [walking_insertAll, ← insertsOf_append] at h₁
      have hslot₁ : (walking f cur (d ++ (x, 0) :: q) (insertsOf (added ++ adds))).slots
          (walking f cur (d ++ (x, 0) :: q) (insertsOf (added ++ adds))).cur =
          pushed cur (insertsOf (added ++ adds)) cur ++ d ++ (x, 0) :: q := by
        rw [walking_cur, walking_slot, List.append_assoc]
      obtain ⟨w₂, m₂, hremove, h₂, he⟩ := Holds.removeExpired h₁ hslot₁
      rw [walking_cur, List.append_assoc, walking_replace] at h₂
      obtain ⟨w', m', more, hloop, hwalk⟩ := ih d n w₂ m₂ (added ++ adds) h₂ hn'
      refine ⟨w', m', adds ++ more, ?_, ?_, ?_, ?_⟩
      · rw [deref_present ht, ok_bind, if_neg hzero, hcall, ok_bind]
        simp only [hadded]
        rw [hadds, ok_bind]
        simp only
        rw [hremove, ok_bind, ← List.append_assoc]
        exact hloop
      · rw [turned_cons_zero, ← List.append_assoc added]
        exact hwalk.holds
      · rw [hwalk.calls, he.calls, List.append_nil, hcalls₁, expired_cons_zero, List.append_assoc]
        rfl
      · have hgrown : Grown m m₁ adds := ⟨hgrown₁.keeps, hgrown₁.fresh, hgrown₁.distinct⟩
        exact (hgrown.of_effect he).append hwalk.grown

/-- `tick` with callbacks that add timers. -/
theorem Holds.tickCalling (h : Holds s a) (hcb : ∀ w m, FreshAdds m (callbacks w m)) :
    ∃ s' added, s.applyCalling .ignored (.tick callbacks) = .ok (s', added) ∧
      Holds s' (a.advanceInserting (insertsOf added)) ∧
      s'.memory.calls = s.memory.calls ++ a.fired ∧ Grown s.memory s'.memory added := by
  have hself : Function.update a.slots a.cur (a.slots a.cur) = a.slots := Function.update_eq_self ..
  have hstart : Holds ⟨s.wheel, s.memory⟩ (walking a.slots a.cur ([] ++ a.slots a.cur) (insertsOf [])) := by
    rw [List.nil_append, walking, hself]
    exact h
  obtain ⟨w', m', added, hloop, hwalk⟩ := tickLoopCalling_runs hcb (a.slots a.cur) [] (s.memory.made + 1)
    s.wheel s.memory [] hstart (Nat.lt_succ_of_le (h.made a.cur))
  have hholds := hwalk.holds
  rw [List.nil_append, List.nil_append] at hholds
  have hwheel : w' = ⟨List.ofFn fun i => (timers ((walking a.slots a.cur (turned (a.slots a.cur))
      (insertsOf added)).slots i)).head?, (walking a.slots a.cur (turned (a.slots a.cur))
      (insertsOf added)).cur⟩ := hholds.wheel
  rw [walking_cur] at hwheel
  refine ⟨⟨{ w' with curSlot := (w'.curSlot + 1) % N }, m'⟩, added, ?_, ⟨?_, hholds.slot, hholds.made⟩,
    hwalk.calls, hwalk.grown⟩
  · have hload : load s.wheel.slots s.wheel.curSlot = .ok (timers (a.slots a.cur)).head? := by
      rw [h.wheel]
      exact load_ofFn ..
    rw [List.nil_append] at hloop
    rw [WheelState.applyCalling, TimeWheel.tickCalling, hload, ok_bind, hloop]
    rfl
  · rw [hwheel]
    rfl

end Rules

end ServerListings.Interface.WheelRules
