import ServerListings.Interface.WheelRuns

/-!
# The slot lists of the time wheel stay well linked

Lifetimes are left aside. In every state that a program reaches, each slot starts a list of
timers that are linked both ways and know their slot, and no timer is met twice
(`WellLinked`). `Changes` says what each call makes of these lists: `add_timer` pushes on the
front of one, `del_timer` takes its argument out of one, and `tick` takes the timers without
turns left out of the current one.
-/

set_option autoImplicit false

namespace ServerListings.Analysis.WheelLinks

open Lib.CMem Lib.ObjectStore Lib.DoublyLinked Lib.TimingWheel Lib.Transition ServerListings.Model
open ServerListings.Model.TimeWheel ServerListings.Interface.WheelSlots
open ServerListings.Interface.WheelOps ServerListings.Interface.WheelRules

/-- The timers `l` are met from slot `i` along `next`. The first has none before it, each other
one has the timer before it as its `prev`, and each knows its slot. -/
structure Chain (s : WheelState) (i : Nat) (l : List Ptr) : Prop where
  met : SlotTimers s i l
  first : ∀ p, l.head? = some p → ∃ t, s.memory.nodes p = some t ∧ t.prev = none
  back : ∀ p ∈ l, ∀ t q, s.memory.nodes p = some t → t.next = some q →
    ∃ u, s.memory.nodes q = some u ∧ u.prev = some p
  slot : ∀ p ∈ l, ∃ t, s.memory.nodes p = some t ∧ t.timeSlot = i
  nodup : l.Nodup

/-- Every slot starts such a list, and no timer is in two of them. -/
structure WellLinked (s : WheelState) : Prop where
  size : s.wheel.slots.length = N
  cur : s.wheel.curSlot < N
  chains : ∀ i, i < N → ∃ l, Chain s i l
  once : ∀ i j p, InSlot s i p → InSlot s j p → i = j

/-- The timer in `s'` is the one in `s` but for its links, and it has made this many turns. -/
def SameTimer (s s' : WheelState) (made : Nat) (p : Ptr) : Prop :=
  ∃ t t', s.memory.nodes p = some t ∧ s'.memory.nodes p = some t' ∧ t'.rotation + made = t.rotation ∧
    t'.timeSlot = t.timeSlot ∧ t'.cbFunc = t.cbFunc ∧ t'.userData = t.userData

/-- Slot `i` has another list, of timers that were there and of new ones. The other slots have
their lists of the same objects. -/
structure Replaces (s s' : WheelState) (i : Nat) (f : List Ptr → List Ptr) (made : Nat) : Prop where
  slot : ∀ l, SlotTimers s i l → SlotTimers s' i (f l)
  kept : ∀ l, SlotTimers s i l → ∀ p ∈ l, p ∈ f l → SameTimer s s' made p
  others : ∀ j, j ≠ i → ∀ l, SlotTimers s j l → SlotTimers s' j l ∧
    ∀ p ∈ l, s'.memory.nodes p = s.memory.nodes p

/-- The turns that a timer has left. -/
def rotationOf (s : WheelState) (p : Ptr) : Nat := ((s.memory.nodes p).map (·.rotation)).getD 0

/-- What a call makes of the lists. -/
def Changes (s : WheelState) : WheelOp → WheelState → Prop
  | .add p timeout f d, s' =>
    (timeout < 0 → s' = s) ∧
      (¬ timeout < 0 → ∃ i, i = (s.wheel.curSlot + ticksOf timeout % N) % N ∧
        Replaces s s' i (p :: ·) 0 ∧
        entryAt s'.memory p = some (ticksOf timeout / N, i, some f, d) ∧
        s'.wheel.curSlot = s.wheel.curSlot)
  | .del none, s' => s' = s
  | .del (some p), s' =>
    (∀ i, InSlot s i p → Replaces s s' i (·.erase p) 0) ∧ s'.wheel.curSlot = s.wheel.curSlot
  | .tick, s' =>
    Replaces s s' s.wheel.curSlot (·.filter (rotationOf s · ≠ 0)) 1 ∧
      s'.wheel.curSlot = (s.wheel.curSlot + 1) % N

section States

variable {s s' : WheelState} {a a' : Agenda} {m m' : WheelMemory} {i : Fin N} {p : Ptr}
  {q l b : List (TimerCall × Nat)} {e : TimerCall × Nat}

/-- A timer is determined by its entry and its place in the list. -/
theorem nodes_eq (h : SlotList m i q) (h' : SlotList m' i q) (hp : p ∈ timers q) :
    m'.nodes p = m.nodes p := by
  obtain ⟨e, he, rfl⟩ := List.mem_map.mp hp
  obtain ⟨l, b, rfl⟩ := List.append_of_mem he
  obtain ⟨t, ht, hrot, hslot, hcb, hdata, hprev, hnext⟩ := h.deref
  obtain ⟨t', ht', hrot', hslot', hcb', hdata', hprev', hnext'⟩ := h'.deref
  rw [ht, ht']
  congr 1
  cases t
  cases t'
  simp_all only

/-- The timers of a slot are linked as a list. -/
theorem chain_of_holds (h : Holds s a) (i : Fin N) : Chain s i (timers (a.slots i)) := by
  have hlist := h.slot i
  refine ⟨h.slotTimers i, ?_, ?_, ?_, hlist.nodup⟩
  · intro p hp
    cases hq : a.slots i with
    | nil =>
      rw [hq] at hp
      cases hp
    | cons e b =>
      rw [hq] at hp hlist
      obtain rfl := Option.some.inj hp
      obtain ⟨t, ht, -, -, -, -, hprev, -⟩ := SlotList.deref (a := []) hlist
      exact ⟨t, ht, hprev⟩
  · intro p hp t r ht hnext
    obtain ⟨e, he, rfl⟩ := List.mem_map.mp hp
    obtain ⟨l, b, hq⟩ := List.append_of_mem he
    rw [hq] at hlist
    obtain ⟨t', ht', -, -, -, -, -, hnext'⟩ := hlist.deref
    rw [ht] at ht'
    obtain rfl := Option.some.inj ht'
    cases b with
    | nil =>
      rw [hnext] at hnext'
      cases hnext'
    | cons g b =>
      rw [hnext] at hnext'
      obtain rfl := Option.some.inj hnext'
      have hlist' : SlotList s.memory i ((l ++ [e]) ++ g :: b) := by
        rwa [List.append_assoc]
      obtain ⟨u, hu, -, -, -, -, hprev, -⟩ := hlist'.deref
      refine ⟨u, hu, ?_⟩
      rw [hprev, timers_append]
      exact List.getLast?_concat
  · intro p hp
    obtain ⟨e, he, rfl⟩ := List.mem_map.mp hp
    obtain ⟨t, ht, -, hslot, -⟩ := (hlist.entries e he).alive
    exact ⟨t, ht, hslot⟩

/-- All slots are linked well. -/
theorem wellLinked_of_holds (h : Holds s a) : WellLinked s where
  size := by
    rw [h.wheel]
    exact List.length_ofFn
  cur := by
    rw [h.wheel]
    exact a.cur.isLt
  chains := fun i hi => ⟨_, chain_of_holds h ⟨i, hi⟩⟩
  once := by
    intro i j p hi hj
    obtain ⟨hi, hpi⟩ := (h.inSlot_iff i).mp hi
    obtain ⟨hj, hpj⟩ := (h.inSlot_iff j).mp hj
    exact (h.slot ⟨i, hi⟩).slot_unique (h.slot ⟨j, hj⟩) hpi hpj

/-- Two wheels that differ in one slot. -/
theorem replaces_of_holds {f : List Ptr → List Ptr} {made : Nat} (h : Holds s a) (h' : Holds s' a')
    (hothers : ∀ j, j ≠ i → a'.slots j = a.slots j)
    (hslot : timers (a'.slots i) = f (timers (a.slots i)))
    (hentries : ∀ e ∈ a.slots i, e.1.timer ∈ f (timers (a.slots i)) →
      ∃ r, (e.1, r) ∈ a'.slots i ∧ r + made = e.2) : Replaces s s' i f made := by
  constructor
  · intro l hl
    obtain ⟨hi, rfl⟩ := (h.slotTimers_iff i).mp hl
    rw [← hslot]
    exact h'.slotTimers i
  · intro l hl p hp hin
    obtain ⟨hi, rfl⟩ := (h.slotTimers_iff i).mp hl
    obtain ⟨e, he, rfl⟩ := List.mem_map.mp hp
    obtain ⟨r, hr, hsum⟩ := hentries e he hin
    obtain ⟨t, ht, hrot, hts, hcb, hdata⟩ := ((h.slot i).entries e he).alive
    obtain ⟨t', ht', hrot', hts', hcb', hdata'⟩ := ((h'.slot i).entries _ hr).alive
    refine ⟨t, t', ht, ht', ?_, hts'.trans hts.symm, hcb'.trans hcb.symm, hdata'.trans hdata.symm⟩
    rw [hrot, hrot', ← hsum]
  · intro j hj l hl
    obtain ⟨hlt, rfl⟩ := (h.slotTimers_iff j).mp hl
    have hsame : a'.slots ⟨j, hlt⟩ = a.slots ⟨j, hlt⟩ := by
      apply hothers
      rintro rfl
      exact hj rfl
    have hlist := h'.slot ⟨j, hlt⟩
    rw [hsame] at hlist
    refine ⟨?_, fun p hp => nodes_eq (h.slot ⟨j, hlt⟩) hlist hp⟩
    rw [← hsame]
    exact h'.slotTimers ⟨j, hlt⟩

/-! ## What each call changes -/

/-- An addition puts one timer in front of its slot. -/
theorem add_changes {timeout : Int} {f d : Nat} (h : Holds s a)
    (hfresh : s.memory.nodes p = none) :
    ∃ s', s.apply .ignored (.add p timeout f d) = .ok s' ∧ Changes s (.add p timeout f d) s' := by
  by_cases htimeout : timeout < 0
  · exact ⟨s, apply_add_refused htimeout, fun _ => rfl, fun hnot => absurd htimeout hnot⟩
  · obtain ⟨s', hs', h', -, -⟩ := h.add (k := .ignored) (f := f) (d := d) hfresh htimeout
    let i := slotAfter a.cur (ticksOf timeout)
    have hslot : (a.insert ⟨p, f, d⟩ (ticksOf timeout)).slots i =
        (⟨p, f, d⟩, ticksOf timeout / N) :: a.slots i := Function.update_self ..
    refine ⟨s', hs', fun hneg => absurd hneg htimeout, fun _ => ⟨i, ?_, ?_, ?_, ?_⟩⟩
    · rw [h.wheel]
      rfl
    · apply replaces_of_holds h h'
      · intro j hj
        exact Function.update_of_ne hj ..
      · rw [hslot]
        rfl
      · intro e he _
        refine ⟨e.2, ?_, rfl⟩
        rw [hslot]
        exact List.mem_cons_of_mem _ he
    · apply (h'.slot i).entries (⟨p, f, d⟩, ticksOf timeout / N)
      rw [hslot]
      exact List.mem_cons_self
    · rw [h.wheel, h'.wheel]
      rfl

/-- The timers of a slot without one of them. -/
theorem timers_erase (h : SlotList m i (l ++ e :: b)) :
    (timers (l ++ e :: b)).erase e.1.timer = timers (l ++ b) := by
  have hnot := h.notMem
  rw [timers_append, List.mem_append, not_or] at hnot
  rw [timers_middle, List.erase_append_right _ hnot.1, List.erase_cons_head, timers_append]

/-- A deletion takes one timer out of its slot. -/
theorem del_changes (h : Holds s a) (hin : ∃ i, InSlot s i p) :
    ∃ s', s.apply .ignored (.del (some p)) = .ok s' ∧ Changes s (.del (some p)) s' := by
  obtain ⟨i, hin⟩ := hin
  obtain ⟨hi, hp⟩ := (h.inSlot_iff i).mp hin
  obtain ⟨e, he, rfl⟩ := List.mem_map.mp hp
  obtain ⟨s', hs', h', -⟩ := Holds.del (k := .ignored) h he
  obtain ⟨l, b, hq⟩ := List.append_of_mem he
  have hlist := h.slot ⟨i, hi⟩
  rw [hq] at hlist
  rw [remove_slots h hq] at h'
  have hslot : (⟨Function.update a.slots ⟨i, hi⟩ (l ++ b), a.cur⟩ : Agenda).slots ⟨i, hi⟩ = l ++ b :=
    Function.update_self ..
  refine ⟨s', hs', ?_, ?_⟩
  · intro j hj
    obtain ⟨hlt, hpj⟩ := (h.inSlot_iff j).mp hj
    obtain rfl : i = j := (h.slot ⟨i, hi⟩).slot_unique (h.slot ⟨j, hlt⟩) hp hpj
    apply replaces_of_holds (i := ⟨i, hi⟩) h h'
    · intro j hj
      exact Function.update_of_ne hj ..
    · rw [hslot, hq]
      exact (timers_erase hlist).symm
    · intro g hg hmem
      refine ⟨g.2, ?_, rfl⟩
      rw [hq, timers_erase hlist] at hmem
      rw [hq, List.mem_append, List.mem_cons] at hg
      rw [hslot, List.mem_append]
      rcases hg with hg | rfl | hg
      · exact Or.inl hg
      · exact absurd hmem hlist.notMem
      · exact Or.inr hg
  · rw [h.wheel, h'.wheel]

/-- The rotations of an entry are in its object. -/
theorem rotationOf_entry (h : SlotList s.memory i q) (he : e ∈ q) : rotationOf s e.1.timer = e.2 := by
  obtain ⟨t, ht, hrot, -⟩ := (h.entries e he).alive
  rw [rotationOf, ht, ← hrot]
  rfl

/-- The timers with turns left. -/
theorem timers_turned (h : SlotList s.memory i q) :
    timers (turned q) = (timers q).filter (rotationOf s · ≠ 0) := by
  unfold timers turned
  rw [List.map_map, List.filter_map]
  have hfilter : q.filter (0 < ·.2) = q.filter ((rotationOf s · ≠ 0) ∘ fun e => e.1.timer) := by
    apply List.filter_congr
    intro e he
    simp only [Function.comp, rotationOf_entry h he, Nat.pos_iff_ne_zero]
  rw [hfilter]
  rfl

/-- A tick changes the current slot only. -/
theorem tick_changes (h : Holds s a) :
    ∃ s', s.apply .ignored .tick = .ok s' ∧ Changes s .tick s' := by
  obtain ⟨s', hs', h', -⟩ := Holds.tick (k := .ignored) h fun hk => by cases hk
  have hcur : s.wheel.curSlot = a.cur := by rw [h.wheel]
  have hslot : a.advance.slots a.cur = turned (a.slots a.cur) := Function.update_self ..
  have htimers := timers_turned (h.slot a.cur)
  refine ⟨s', hs', ?_, ?_⟩
  · rw [hcur]
    apply replaces_of_holds h h'
    · intro j hj
      exact Function.update_of_ne hj ..
    · rw [hslot, htimers]
    · intro e he hmem
      have hpos : 0 < e.2 := by
        have hne := (List.mem_filter.mp hmem).2
        rw [rotationOf_entry (h.slot a.cur) he, decide_eq_true_eq] at hne
        exact Nat.pos_of_ne_zero hne
      refine ⟨e.2 - 1, ?_, Nat.sub_add_cancel hpos⟩
      have hleft : e ∈ (a.slots a.cur).filter (0 < ·.2) :=
        List.mem_filter.mpr ⟨he, decide_eq_true hpos⟩
      rw [hslot]
      exact List.mem_map_of_mem hleft
  · rw [hcur, h'.wheel]
    show (slotAfter a.cur 1 : Nat) = _
    rw [slotAfter]
    rfl

end States

/-- The wheel of every reachable state is well linked, and every call from it returns and
changes the lists as it should. -/
theorem slots_well_linked {ops : List WheelOp} {s : WheelState}
    (h : Trace (Step .ignored) .create ops s) :
    WellLinked s ∧ ∀ op, Admissible s op → ∃ s', s.apply .ignored op = .ok s' ∧ Changes s op s' := by
  have hinv : ∃ a, Holds s a := by
    apply h.invariant
    · exact ⟨_, holds_create ⟨0, Nat.zero_lt_succ _⟩ rfl⟩
    · intro s op s' hs hstep
      obtain ⟨a, ha⟩ := hs
      obtain ⟨s₁, h', called, happly, -, hholds, -, -⟩ :=
        ha.serve (k := .ignored) hstep.1 fun hk => by cases hk
      obtain rfl := result_unique hstep.2 happly
      exact ⟨_, hholds⟩
  obtain ⟨a, ha⟩ := hinv
  refine ⟨wellLinked_of_holds ha, ?_⟩
  intro op hop
  cases op with
  | add p timeout f d => exact add_changes ha hop
  | del timer =>
    cases timer with
    | none => exact ⟨s, rfl, rfl⟩
    | some p => exact del_changes ha hop
  | tick => exact tick_changes ha

/-- Two timers in one slot, in the state before the tick that comes to it. -/
theorem slots_well_linked_two : ∃ s, Trace (Step .ignored) .create [.add 1 1 7 8, .add 2 61 7 9, .tick] s ∧
    WellLinked s ∧ ∃ s', s.apply .ignored .tick = .ok s' ∧ Changes s .tick s' := by
  have htrace : Trace (Step .ignored) .create [.add 1 1 7 8, .add 2 61 7 9, .tick] _ :=
    .cons ⟨rfl, rfl⟩ (.cons ⟨rfl, rfl⟩ (.cons ⟨trivial, rfl⟩ (.nil _)))
  exact ⟨_, htrace, (slots_well_linked htrace).1, (slots_well_linked htrace).2 .tick trivial⟩

end ServerListings.Analysis.WheelLinks
