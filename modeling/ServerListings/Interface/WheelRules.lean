import Mathlib.Data.List.OfFn
import ServerListings.Interface.WheelOps

/-!
# The time wheel holds an abstract wheel

`Holds s a` says that the slots of `s` list the entries of the abstract wheel `a`. There is one
rule for each operation: it has a result, and the result holds what the operation on the
abstract wheel gives.
-/

set_option autoImplicit false

namespace ServerListings.Interface.WheelRules

open Lib.CMem Lib.ObjectStore Lib.DoublyLinked Lib.TimingWheel ServerListings.Model
open ServerListings.Model.TimeWheel ServerListings.Interface.WheelSlots
open ServerListings.Interface.WheelOps

/-- The abstract wheels of the entries of a time wheel. -/
abbrev Agenda := Wheel N TimerCall

/-- The wheel and the store of `s` hold the entries of `a`. -/
structure Holds (s : WheelState) (a : Agenda) : Prop where
  wheel : s.wheel = ⟨List.ofFn fun i => (timers (a.slots i)).head?, a.cur⟩
  slot : ∀ i : Fin N, SlotList s.memory i (a.slots i)
  made : ∀ i : Fin N, (a.slots i).length ≤ s.memory.made

section Rules

variable {k : Lifetimes} {s : WheelState} {a : Agenda} {i j : Fin N} {m' : WheelMemory}
  {q : List (TimerCall × Nat)} {p : Ptr} {e : TimerCall × Nat}

/-- The new wheel is empty. -/
theorem holds_create (i : Fin N) (hi : (i : Nat) = 0) : Holds WheelState.create (empty i) := by
  refine ⟨?_, fun _ => ⟨trivial, List.nodup_nil, ?_⟩, fun _ => Nat.zero_le _⟩
  · simp only [WheelState.create, create, empty, hi, ← List.ofFn_const]
    rfl
  · intro e he
    cases he

/-- What happens to the timers of one slot leaves the lists of the others alone. -/
theorem Holds.others (h : Holds s a) (ho : Outside s.memory m' (timers (a.slots i))) (hj : j ≠ i) :
    SlotList m' j (a.slots j) := by
  apply (h.slot j).congr
  intro p hp
  apply ho
  intro hp'
  exact hj (Fin.ext ((h.slot j).slot_unique (h.slot i) hp hp'))

/-- Turning a slot makes it no longer. -/
theorem length_turned (q : List (TimerCall × Nat)) : (turned q).length ≤ q.length := by
  unfold turned
  rw [List.length_map]
  exact List.length_filter_le ..

/-- Changing a slot changes its head. -/
theorem heads_update (f : Fin N → List (TimerCall × Nat)) (i : Fin N) (l : List (TimerCall × Nat)) :
    (fun j => (timers (Function.update f i l j)).head?) =
      Function.update (fun j => (timers (f j)).head?) i (timers l).head? := by
  funext j
  by_cases hj : j = i
  · subst hj
    rw [Function.update_self, Function.update_self]
  · rw [Function.update_of_ne hj, Function.update_of_ne hj]

/-- The list of one slot is replaced. -/
theorem Holds.replace {l : List (TimerCall × Nat)} (h : Holds s a) (hslot : SlotList m' i l)
    (ho : Outside s.memory m' (timers (a.slots i))) (hlen : l.length ≤ (a.slots i).length)
    (hmade : m'.made = s.memory.made) (cur : Fin N) :
    Holds ⟨⟨List.ofFn (Function.update (fun j => (timers (a.slots j)).head?) i (timers l).head?), cur⟩, m'⟩
      ⟨Function.update a.slots i l, cur⟩ := by
  refine ⟨?_, fun j => ?_, fun j => ?_⟩
  · simp only [heads_update]
  · by_cases hj : j = i
    · subst hj
      simp only [Function.update_self]
      exact hslot
    · simp only [Function.update_of_ne hj]
      exact h.others ho hj
  · simp only [hmade]
    by_cases hj : j = i
    · subst hj
      rw [Function.update_self]
      exact hlen.trans (h.made _)
    · rw [Function.update_of_ne hj]
      exact h.made j

/-- Without a timer behind others, the first timers of the slots are the same. -/
theorem heads_behind {c l : List (TimerCall × Nat)} {u : TimerCall × Nat} (hi : a.slots i = c ++ [u] ++ e :: l) :
    Function.update (fun j => (timers (a.slots j)).head?) i (timers (c ++ [u] ++ l)).head? =
      fun j => (timers (a.slots j)).head? := by
  apply Function.update_eq_self_iff.mpr
  rw [hi]
  cases c <;> rfl

/-! ## Ticking -/

/-- `tick` calls the expired timers of the current slot and deletes them, and goes on to the
next slot. -/
theorem Holds.tick (h : Holds s a) (hsafe : k = .kept → tickSafe (turns (a.slots a.cur)) = true) :
    ∃ s', s.apply k .tick = .ok s' ∧ Holds s' a.advance ∧
      Effect k s.memory s'.memory a.fired (a.fired.map (·.timer)) := by
  obtain ⟨w', m', hloop, hwalk⟩ := tickLoop_runs (k := k) (i := a.cur) (a.slots a.cur) []
    (s.memory.made + 1) (fun i => (timers (a.slots i)).head?) s.memory (h.slot a.cur) rfl
    (Nat.lt_succ_of_le (h.made a.cur)) hsafe
  refine ⟨_, ?_, h.replace hwalk.slot hwalk.outside (length_turned _) hwalk.effect.made _,
    hwalk.effect⟩
  rw [WheelState.apply, TimeWheel.tick, h.wheel]
  simp only
  rw [load_ofFn, ok_bind, hloop, ok_bind, hwalk.wheel]
  rfl

/-- When lifetimes are kept, `tick` follows a deleted timer where the condition fails. -/
theorem Holds.tick_unsafe (h : Holds s a) (hlate : tickSafe (turns (a.slots a.cur)) = false) :
    s.apply .kept .tick = .error .deadObject := by
  have hloop := tickLoop_unsafe (i := a.cur) (a.slots a.cur) [] (s.memory.made + 1)
    (fun i => (timers (a.slots i)).head?) s.memory (h.slot a.cur) rfl
    (Nat.lt_succ_of_le (h.made a.cur)) hlate
  rw [WheelState.apply, TimeWheel.tick, h.wheel]
  simp only
  rw [load_ofFn, ok_bind, hloop]
  rfl

/-! ## Deleting -/

/-- Removing a timer takes it out of its slot. -/
theorem remove_slots {l b : List (TimerCall × Nat)} (h : Holds s a) (hi : a.slots i = l ++ e :: b) :
    a.remove (·.timer) e.1.timer = ⟨Function.update a.slots i (l ++ b), a.cur⟩ := by
  have hlist := h.slot i
  rw [hi] at hlist
  unfold Wheel.remove
  congr 1
  funext j
  by_cases hj : j = i
  · subst hj
    have hall : ∀ y ∈ l ++ b, decide (y.1.timer ≠ e.1.timer) = true := by
      intro y hy
      apply decide_eq_true
      intro heq
      exact hlist.notMem (heq ▸ mem_timers hy)
    rw [Function.update_self, hi, List.filter_append, List.filter_cons_of_neg (by simp),
      ← List.filter_append, List.filter_eq_self.mpr hall]
  · rw [Function.update_of_ne hj]
    apply List.filter_eq_self.mpr
    intro y hy
    apply decide_eq_true
    intro heq
    have hmem : e.1.timer ∈ timers (a.slots i) := by
      rw [hi]
      exact mem_timers (List.mem_append_right _ List.mem_cons_self)
    exact hj (Fin.ext ((h.slot j).slot_unique (h.slot i) (heq ▸ mem_timers hy) hmem))

/-- `del_timer` takes a linked timer out of its list and deletes it. -/
theorem Holds.del (h : Holds s a) (he : e ∈ a.slots i) :
    ∃ s', s.apply k (.del (some e.1.timer)) = .ok s' ∧ Holds s' (a.remove (·.timer) e.1.timer) ∧
      Effect k s.memory s'.memory [] [e.1.timer] := by
  obtain ⟨l, b, hi⟩ := List.append_of_mem he
  have hlist := h.slot i
  rw [hi] at hlist
  have hlen : (l ++ b).length ≤ (a.slots i).length := by
    rw [hi, List.length_append, List.length_append, List.length_cons]
    omega
  obtain ⟨t, ht, -, hslot, -, -, -, hnext⟩ := hlist.deref
  rw [remove_slots h hi]
  have hload : load (List.ofFn fun j => (timers (a.slots j)).head?) t.timeSlot =
      .ok (timers (l ++ e :: b)).head? := by
    rw [hslot, load_ofFn, hi]
  simp only [WheelState.apply, TimeWheel.delTimer, Option.isNone_some, Bool.false_eq_true, if_false, h.wheel,
    deref_present ht, hload, ok_bind]
  rcases List.eq_nil_or_concat l with rfl | ⟨c, u, rfl⟩
  · obtain ⟨m₁, m₂, hw, hd, hrest, he, ho⟩ := clearDelete_spec k hlist
    have hhead : (timers ([] ++ e :: b)).head? = some e.1.timer := rfl
    refine ⟨_, ?_, h.replace hrest (hi ▸ ho) hlen he.made a.cur, he⟩
    rw [hhead, if_pos rfl, deref_present ht, ok_bind, setSlot]
    simp only
    rw [hslot, store_ofFn, ok_bind, hnext]
    simp only [pure, Except.pure, ok_bind]
    rw [hw, ok_bind, hd, ok_bind]
    rfl
  · rw [List.concat_eq_append] at *
    obtain ⟨m₁, m₂, hu, -, hd, hrest, he, ho⟩ := unlinkDelete_spec k hlist ht
    have hholds := h.replace hrest (hi ▸ ho) hlen he.made a.cur
    rw [heads_behind hi] at hholds
    refine ⟨_, ?_, hholds, he⟩
    rw [if_neg (ne_head_behind hlist), hu, ok_bind, hd, ok_bind]
    rfl

/-! ## Adding -/

/-- What putting a timer `p` in front of a list does to the other timers. -/
def relinked (q : List (TimerCall × Nat)) (p : Ptr) (r : Ptr) (t : TwTimer) : TwTimer :=
  if (timers q).head? = some r then { t with prev := some p } else t

/-- The links back after a timer was put in front. -/
theorem relinked_prev {m : WheelMemory} {r : Ptr} {t : TwTimer} (ht : m.nodes r = some t) :
    (relinked q p r t).prev = setAt (prevLink m) (timers q).head? (some p) r := by
  unfold relinked
  cases (timers q).head? with
  | none =>
    rw [if_neg (Option.some_ne_none r).symm]
    exact (prevLink_eq ht).symm
  | some v =>
    rw [setAt_some, Function.update_apply]
    by_cases hv : r = v
    · rw [if_pos (congrArg some hv.symm), if_pos hv]
    · rw [if_neg (fun heq => hv (Option.some.inj heq).symm), if_neg hv]
      exact (prevLink_eq ht).symm

/-- A timer is put in front of a list. -/
theorem push_spec {m : WheelMemory} {c : TimerCall} {r : Nat} (h : SlotList m i q)
    (hnew : c.timer ∉ timers q)
    (hnode : m'.nodes c.timer = some ⟨r, i, some c.cbFunc, c.userData, none, (timers q).head?⟩)
    (hrest : ∀ p, p ≠ c.timer → m'.nodes p = (m.nodes p).map (relinked q c.timer p)) :
    SlotList m' i ((c, r) :: q) := by
  have hnodes : ∀ p ∈ timers q, ∃ t, m.nodes p = some t ∧
      m'.nodes p = some (relinked q c.timer p t) := by
    intro p hp
    obtain ⟨t, ht⟩ := alive_of_mem h hp
    refine ⟨t, ht, ?_⟩
    rw [hrest p (fun heq => hnew (heq ▸ hp)), ht]
    rfl
  constructor
  · change Linked (prevLink m') (nextLink m') ([] ++ c.timer :: timers q)
    apply Linked.insert (a := []) h.links h.nodup
    · exact prevLink_eq hnode
    · exact nextLink_eq hnode
    · intro p hp
      obtain ⟨t, ht, ht'⟩ := hnodes p hp
      rw [prevLink_eq ht']
      exact relinked_prev ht
    · intro p hp
      obtain ⟨t, ht, ht'⟩ := hnodes p hp
      have hnext : nextLink m' p = nextLink m p := by
        rw [nextLink_eq ht', nextLink_eq ht, relinked]
        split <;> rfl
      exact hnext
  · exact List.nodup_cons.mpr ⟨hnew, h.nodup⟩
  · intro e he
    rcases List.mem_cons.mp he with rfl | he
    · exact peek_some hnode
    · obtain ⟨t, ht, ht'⟩ := hnodes _ (mem_timers he)
      have hentry := h.entries e he
      unfold IsEntry entryAt at *
      rw [peek_some ht] at hentry
      rw [peek_some ht', relinked, ← hentry]
      split <;> rfl

/-- The memory in which `add_timer` and the caller have made a timer. -/
theorem addTimer_memory {w : TimeWheel} {timeout : Int} {m : WheelMemory} {f d : Nat}
    (hwheel : w = ⟨List.ofFn fun i => (timers (a.slots i)).head?, a.cur⟩)
    (hi : i = slotAfter a.cur (ticksOf timeout)) (h : SlotList m i (a.slots i))
    (hfresh : m.nodes p = none) (htimeout : ¬ timeout < 0) :
    ∃ w' m₁ m', addTimer w m p timeout = .ok (some p, w', m₁) ∧
      m₁.writeIfSome (some p) (fun t => { t with cbFunc := some f, userData := d }) = .ok m' ∧
      w' = ⟨List.ofFn (Function.update (fun i => (timers (a.slots i)).head?) i (some p)), a.cur⟩ ∧
      m'.nodes p = some ⟨ticksOf timeout / N, i, some f, d, none, (timers (a.slots i)).head?⟩ ∧
      (∀ r, r ≠ p → m'.nodes r = (m.nodes r).map (relinked (a.slots i) p r)) ∧
      m'.calls = m.calls ∧ m'.made = m.made + 1 := by
  have hindex : (a.cur + ticksOf timeout % N) % N = (i : Nat) := by
    rw [hi]
    rfl
  subst hwheel
  simp only [addTimer, if_neg htimeout, hindex, load_ofFn, ok_bind, setSlot, store_ofFn]
  have hmake : (m.make p (ticksOf timeout / N) i).nodes p =
      some ⟨ticksOf timeout / N, i, none, 0, none, none⟩ := Function.update_self ..
  cases hq : (timers (a.slots i)).head? with
  | none =>
    refine ⟨_, _, _, rfl, writeIfSome_eq hmake _, rfl, Function.update_self .., ?_, rfl, rfl⟩
    intro r hr
    simp only [WheelMemory.make]
    rw [Function.update_of_ne hr, Function.update_of_ne hr]
    cases m.nodes r with
    | none => rfl
    | some t =>
      rw [Option.map_some, relinked, hq, if_neg (Option.some_ne_none r).symm]
  | some v =>
    obtain ⟨tv, htv⟩ := alive_of_mem h (List.mem_of_head? hq)
    have hv : v ≠ p := by
      rintro rfl
      rw [hfresh] at htv
      cases htv
    simp only [Option.isNone_some, Bool.false_eq_true, if_false]
    rw [write_eq hmake, ok_bind]
    let t₁ : TwTimer := ⟨ticksOf timeout / N, i, none, 0, none, some v⟩
    let m₁ : WheelMemory := { m.make p (ticksOf timeout / N) i with
      nodes := Function.update (m.make p (ticksOf timeout / N) i).nodes p (some t₁) }
    have hm₁ : ∀ r, r ≠ p → m₁.nodes r = m.nodes r := by
      intro r hr
      simp only [m₁, WheelMemory.make]
      rw [Function.update_of_ne hr, Function.update_of_ne hr]
    have hp₁ : m₁.nodes p = some t₁ := Function.update_self ..
    let m₂ : WheelMemory := { m₁ with nodes := Function.update m₁.nodes v (some { tv with prev := some p }) }
    have hp₂ : m₂.nodes p = some t₁ := (Function.update_of_ne hv.symm ..).trans hp₁
    have hw₂ : m₁.write (some v) (fun t => { t with prev := some p }) = .ok m₂ :=
      write_eq ((hm₁ v hv).trans htv) _
    refine ⟨⟨_, a.cur⟩, m₂, _, ?_, writeIfSome_eq hp₂ _, rfl, Function.update_self .., ?_, rfl, rfl⟩
    · change (m₁.write (some v) (fun t => { t with prev := some p }) >>= _) = _
      rw [hw₂]
      rfl
    · intro r hr
      simp only
      rw [Function.update_of_ne hr]
      by_cases hrv : r = v
      · subst hrv
        rw [htv, Option.map_some, relinked, hq, if_pos rfl]
        exact Function.update_self ..
      · have hne : ¬ some v = some r := fun heq => hrv (Option.some.inj heq).symm
        have hsame : m₂.nodes r = m.nodes r := (Function.update_of_ne hrv ..).trans (hm₁ r hr)
        rw [hsame]
        cases m.nodes r with
        | none => rfl
        | some t => rw [Option.map_some, relinked, hq, if_neg hne]

/-- `add_timer`, and the caller's setting of the callback and the user data, put a timer in front
of the slot that the wheel comes to after the given number of ticks. -/
theorem Holds.add {timeout : Int} {f d : Nat} (h : Holds s a) (hfresh : s.memory.nodes p = none)
    (htimeout : ¬ timeout < 0) :
    ∃ s', s.apply k (.add p timeout f d) = .ok s' ∧
      Holds s' (a.insert ⟨p, f, d⟩ (ticksOf timeout)) ∧ s'.memory.calls = s.memory.calls ∧
      ∀ r, s'.memory.nodes r = none ↔ s.memory.nodes r = none ∧ r ≠ p := by
  have hnew : ∀ i : Fin N, p ∉ timers (a.slots i) := by
    intro i hp
    obtain ⟨t, ht⟩ := alive_of_mem (h.slot i) hp
    rw [hfresh] at ht
    cases ht
  obtain ⟨w', m₁, m', hadd, hw, hwheel, hnode, hrest, hcalls, hmade⟩ :=
    addTimer_memory (f := f) (d := d) h.wheel rfl (h.slot (slotAfter a.cur (ticksOf timeout)))
      hfresh htimeout
  refine ⟨⟨w', m'⟩, ?_, ⟨?_, ?_, ?_⟩, hcalls, ?_⟩
  · rw [WheelState.apply, hadd, ok_bind]
    simp only
    rw [hw]
    rfl
  · simp only [Wheel.insert, hwheel]
    rw [heads_update]
    rfl
  · intro j
    simp only [Wheel.insert]
    by_cases hj : j = slotAfter a.cur (ticksOf timeout)
    · subst hj
      rw [Function.update_self]
      exact push_spec (h.slot _) (hnew _) hnode hrest
    · rw [Function.update_of_ne hj]
      apply (h.slot j).congr
      intro r hr
      obtain ⟨t, ht⟩ := alive_of_mem (h.slot j) hr
      have hhead : ¬ (timers (a.slots (slotAfter a.cur (ticksOf timeout)))).head? = some r := by
        intro heq
        exact hj (Fin.ext ((h.slot j).slot_unique (h.slot _) hr (List.mem_of_head? heq)))
      rw [hrest r (fun heq => hnew j (heq ▸ hr)), ht, Option.map_some, relinked, if_neg hhead]
  · intro j
    simp only [Wheel.insert]
    rw [hmade]
    by_cases hj : j = slotAfter a.cur (ticksOf timeout)
    · subst hj
      rw [Function.update_self]
      exact Nat.succ_le_succ (h.made _)
    · rw [Function.update_of_ne hj]
      exact Nat.le_succ_of_le (h.made j)
  · intro r
    by_cases hr : r = p
    · subst hr
      rw [hnode]
      exact iff_of_false (Option.some_ne_none _) (fun hand => hand.2 rfl)
    · rw [hrest r hr, Option.map_eq_none_iff]
      exact ⟨fun hnone => ⟨hnone, hr⟩, And.left⟩

/-- A negative timeout is refused. -/
theorem apply_add_refused {timeout : Int} {f d : Nat} (htimeout : timeout < 0) :
    s.apply k (.add p timeout f d) = .ok s := by
  rw [WheelState.apply, addTimer, if_pos htimeout]
  rfl

/-! ## Destroying -/

/-- The inner loop of the destructor deletes the timers that it meets along `next`. -/
theorem destroySlot_spec (k : Lifetimes) (l : List Ptr) :
    ∀ (n : Nat) (heads : Fin N → Option Ptr) (c : Nat) (m : WheelMemory),
      Walk (nextLink m) (heads i) l → l.Nodup → (∀ p ∈ l, ∃ t, m.nodes p = some t) → l.length < n →
      ∃ heads' m', destroySlot k i n (heads i) ⟨List.ofFn heads, c⟩ m = .ok (⟨List.ofFn heads', c⟩, m') ∧
        (∀ j, j ≠ i → heads' j = heads j) ∧ Effect k m m' [] l ∧ Outside m m' l := by
  induction l with
  | nil =>
    intro n heads c m hwalk _ _ hn
    obtain ⟨n, rfl⟩ := Nat.exists_eq_succ_of_ne_zero (Nat.ne_of_gt hn)
    rw [hwalk.start]
    exact ⟨heads, m, rfl, fun _ _ => rfl, effect_of_sameEntries (.refl m), .refl m _⟩
  | cons p l ih =>
    intro n heads c m hwalk hnodup halive hn
    obtain ⟨n, rfl⟩ := Nat.exists_eq_succ_of_ne_zero (Nat.ne_of_gt (Nat.zero_lt_of_lt hn))
    obtain ⟨t, ht⟩ := halive p List.mem_cons_self
    obtain ⟨hrest, hnext⟩ := hwalk.tail
    rw [nextLink_eq ht] at hnext
    obtain ⟨m₁, hd, he, ho⟩ := delete_spec k ht
    obtain ⟨hnot, hnodup'⟩ := List.nodup_cons.mp hnodup
    have hsame : ∀ r ∈ l, m₁.nodes r = m.nodes r := by
      intro r hr
      apply ho
      intro heq
      rw [List.mem_singleton] at heq
      exact hnot (heq ▸ hr)
    have hwalk₁ : Walk (nextLink m₁) (Function.update heads i l.head? i) l := by
      rw [Function.update_self]
      apply hrest.congr
      intro r hr
      unfold nextLink peek
      rw [hsame r hr]
    have halive₁ : ∀ r ∈ l, ∃ t, m₁.nodes r = some t := by
      intro r hr
      rw [hsame r hr]
      exact halive r (List.mem_cons_of_mem _ hr)
    obtain ⟨heads', m', hloop, hheads, he', ho'⟩ :=
      ih n (Function.update heads i l.head?) c m₁ hwalk₁ hnodup' halive₁ (Nat.lt_of_succ_lt_succ hn)
    refine ⟨heads', m', ?_, ?_, he.trans he', ?_⟩
    · have hstart : heads i = some p := hwalk.start
      rw [hstart, destroySlot]
      simp only [Option.isNone_some, Bool.false_eq_true, if_false]
      rw [deref_present ht, ok_bind, setSlot, store_ofFn, ok_bind, hnext]
      simp only [pure, Except.pure, ok_bind]
      rw [hd, ok_bind, load_ofFn, ok_bind]
      exact hloop
    · intro j hj
      rw [hheads j hj, Function.update_of_ne hj]
    · apply (ho.mono _).trans (ho'.mono _)
      · intro r hr
        rw [List.mem_singleton.mp hr]
        exact List.mem_cons_self
      · intro r hr
        exact List.mem_cons_of_mem _ hr

/-- The outer loop of the destructor, over slots that hold their lists. -/
theorem destroyLoop_spec (k : Lifetimes) (a : Agenda) (is : List (Fin N)) :
    ∀ (heads : Fin N → Option Ptr) (c : Nat) (m : WheelMemory), is.Nodup →
      (∀ i ∈ is, SlotList m i (a.slots i) ∧ heads i = (timers (a.slots i)).head? ∧
        (a.slots i).length ≤ m.made) →
      ∃ w' m', TimeWheel.destroyLoop k (is.map Fin.val) ⟨List.ofFn heads, c⟩ m = .ok (w', m') ∧
        Effect k m m' [] (is.flatMap fun i => timers (a.slots i)) := by
  induction is with
  | nil =>
    intro heads c m _ _
    exact ⟨_, m, rfl, effect_of_sameEntries (.refl m)⟩
  | cons i is ih =>
    intro heads c m hnodup hall
    obtain ⟨hnot, hnodup'⟩ := List.nodup_cons.mp hnodup
    obtain ⟨hslot, hhead, hmade⟩ := hall i List.mem_cons_self
    obtain ⟨heads', m₁, hinner, hheads, he, ho⟩ := destroySlot_spec k (timers (a.slots i))
      (m.made + 1) heads c m (hhead ▸ hslot.links.walk_next) hslot.nodup
      (fun p hp => alive_of_mem hslot hp) (by rw [length_timers]; exact Nat.lt_succ_of_le hmade)
    have hrest : ∀ j ∈ is, SlotList m₁ j (a.slots j) ∧ heads' j = (timers (a.slots j)).head? ∧
        (a.slots j).length ≤ m₁.made := by
      intro j hj
      obtain ⟨hslot', hhead', hmade'⟩ := hall j (List.mem_cons_of_mem _ hj)
      have hne : j ≠ i := fun heq => hnot (heq ▸ hj)
      refine ⟨hslot'.congr fun p hp => ho p fun hp' => ?_, ?_, ?_⟩
      · exact hne (Fin.ext (hslot'.slot_unique hslot hp hp'))
      · rw [hheads j hne, hhead']
      · rw [he.made]
        exact hmade'
    obtain ⟨w', m', hloop, he'⟩ := ih heads' c m₁ hnodup' hrest
    refine ⟨w', m', ?_, he.trans he'⟩
    rw [List.map_cons, TimeWheel.destroyLoop]
    simp only
    rw [load_ofFn, ok_bind, hinner, ok_bind, hloop]

/-- The destructor deletes the linked timers. -/
theorem Holds.destroy (h : Holds s a) (k : Lifetimes) :
    ∃ w' m', TimeWheel.destroy k s.wheel s.memory = .ok (w', m') ∧
      Effect k s.memory m' [] ((List.finRange N).flatMap fun i => timers (a.slots i)) := by
  rw [TimeWheel.destroy, h.wheel, ← List.map_coe_finRange_eq_range]
  exact destroyLoop_spec k a (List.finRange N) _ _ _ (List.nodup_finRange N)
    fun i _ => ⟨h.slot i, rfl, h.made i⟩

end Rules

end ServerListings.Interface.WheelRules
