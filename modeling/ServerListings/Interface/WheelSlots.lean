import ServerListings.Lib.DoublyLinked
import ServerListings.Lib.TimingWheel
import ServerListings.Model.TimeWheel

/-!
# The lists of timers in the slots of a time wheel

`SlotList m i q` says that the timers of the entries `q` are in the store, are linked in this
order, and that each of them knows its slot `i`, the turns that `q` gives it and the callback
of its entry. For each group of statements that the operations share there is one rule.
-/

set_option autoImplicit false

namespace ServerListings.Interface.WheelSlots

open Lib.CMem Lib.ObjectStore Lib.DoublyLinked ServerListings.Model

abbrev prevLink (m : WheelMemory) : Ptr → Option Ptr := peek (·.prev) m.nodes

abbrev nextLink (m : WheelMemory) : Ptr → Option Ptr := peek (·.next) m.nodes

/-- What a timer holds besides its links. -/
abbrev entryAt (m : WheelMemory) : Ptr → Option (Nat × Nat × Option Nat × Nat) :=
  peek (fun t => some (t.rotation, t.timeSlot, t.cbFunc, t.userData)) m.nodes

/-- The timers of a list of entries. -/
def timers (q : List (TimerCall × Nat)) : List Ptr := q.map fun e => e.1.timer

/-- The timer of an entry of slot `i` is in the store. -/
def IsEntry (m : WheelMemory) (i : Nat) (e : TimerCall × Nat) : Prop :=
  entryAt m e.1.timer = some (e.2, i, some e.1.cbFunc, e.1.userData)

/-- The timers of the entries are in the store and linked in this order. -/
structure SlotList (m : WheelMemory) (i : Nat) (q : List (TimerCall × Nat)) : Prop where
  links : Linked (prevLink m) (nextLink m) (timers q)
  nodup : (timers q).Nodup
  entries : ∀ e ∈ q, IsEntry m i e

/-- The link back of a live timer. -/
theorem prevLink_eq {m : WheelMemory} {p : Ptr} {t : TwTimer} (ht : m.nodes p = some t) :
    prevLink m p = t.prev := peek_some ht

/-- The link on of a live timer. -/
theorem nextLink_eq {m : WheelMemory} {p : Ptr} {t : TwTimer} (ht : m.nodes p = some t) :
    nextLink m p = t.next := peek_some ht

/-- Two memories that differ in links only. -/
structure SameEntries (m m' : WheelMemory) : Prop where
  entries : entryAt m' = entryAt m
  made : m'.made = m.made
  calls : m'.calls = m.calls

/-- The timers outside of a list are untouched. -/
def Outside (m m' : WheelMemory) (l : List Ptr) : Prop := ∀ p, p ∉ l → m'.nodes p = m.nodes p

section Lists

variable {m m' m'' : WheelMemory} {i : Nat} {q a b : List (TimerCall × Nat)} {e : TimerCall × Nat}
  {p : Ptr} {l l' : List Ptr}

/-- The timers of two parts. -/
theorem timers_append (a b : List (TimerCall × Nat)) : timers (a ++ b) = timers a ++ timers b :=
  List.map_append

/-- The timers behind a first one. -/
theorem timers_cons (e : TimerCall × Nat) (q : List (TimerCall × Nat)) :
    timers (e :: q) = e.1.timer :: timers q := rfl

/-- The timers around one. -/
theorem timers_middle (a : List (TimerCall × Nat)) (e : TimerCall × Nat) (b : List (TimerCall × Nat)) :
    timers (a ++ e :: b) = timers a ++ e.1.timer :: timers b := by
  rw [timers_append, timers_cons]

/-- A timer of either part is one of the whole. -/
theorem mem_timers_middle {p : Ptr} {d q : List (TimerCall × Nat)} (e : TimerCall × Nat)
    (hp : p ∈ timers (d ++ q)) : p ∈ timers (d ++ e :: q) := by
  rw [timers_append, List.mem_append] at hp
  rw [timers_middle, List.mem_append, List.mem_cons]
  tauto

/-- The timer of an entry is one of the list's. -/
theorem mem_timers (h : e ∈ q) : e.1.timer ∈ timers q := List.mem_map_of_mem h

/-- There are as many timers as entries. -/
theorem length_timers (q : List (TimerCall × Nat)) : (timers q).length = q.length :=
  List.length_map ..

/-- Memory has the same entries as itself. -/
theorem SameEntries.refl (m : WheelMemory) : SameEntries m m := ⟨rfl, rfl, rfl⟩

/-- The same entries twice. -/
theorem SameEntries.trans (h : SameEntries m m') (h' : SameEntries m' m'') : SameEntries m m'' :=
  ⟨h'.entries.trans h.entries, h'.made.trans h.made, h'.calls.trans h.calls⟩

/-- The objects in the store are those that hold an entry. -/
theorem nodes_eq_none_iff : m.nodes p = none ↔ entryAt m p = none := by
  unfold entryAt peek
  cases m.nodes p with
  | none => exact iff_of_true rfl rfl
  | some t => exact iff_of_false (Option.some_ne_none _) (Option.some_ne_none _)

/-- The same timers are dead. -/
theorem SameEntries.none_iff (h : SameEntries m m') (p : Ptr) :
    m'.nodes p = none ↔ m.nodes p = none := by
  rw [nodes_eq_none_iff, nodes_eq_none_iff, h.entries]

/-- Memory is the same as itself. -/
theorem Outside.refl (m : WheelMemory) (l : List Ptr) : Outside m m l := fun _ _ => rfl

/-- Two changes inside are one. -/
theorem Outside.trans (h : Outside m m' l) (h' : Outside m' m'' l) : Outside m m'' l :=
  fun p hp => (h' p hp).trans (h p hp)

/-- A change inside a smaller list. -/
theorem Outside.mono (h : Outside m m' l) (hsub : ∀ p ∈ l, p ∈ l') : Outside m m' l' :=
  fun p hp => h p fun hmem => hp (hsub p hmem)

/-- A timer of an entry is alive and has its data. -/
theorem IsEntry.alive (h : IsEntry m i e) : ∃ t, m.nodes e.1.timer = some t ∧ t.rotation = e.2 ∧
    t.timeSlot = i ∧ t.cbFunc = some e.1.cbFunc ∧ t.userData = e.1.userData := by
  obtain ⟨t, ht, heq⟩ := Option.bind_eq_some_iff.mp h
  simp only [Option.some.injEq, Prod.mk.injEq] at heq
  exact ⟨t, ht, heq.1, heq.2.1, heq.2.2.1, heq.2.2.2⟩

/-- An entry stays where its timer does. -/
theorem IsEntry.congr (h : IsEntry m i e) (heq : m'.nodes e.1.timer = m.nodes e.1.timer) :
    IsEntry m' i e := by
  unfold IsEntry entryAt peek at *
  rwa [heq]

/-- Only the timers in the list matter. -/
theorem SlotList.congr (h : SlotList m i q) (heq : ∀ p ∈ timers q, m'.nodes p = m.nodes p) :
    SlotList m' i q := by
  refine ⟨?_, h.nodup, fun e he => (h.entries e he).congr (heq _ (mem_timers he))⟩
  apply h.links.congr
  · intro p hp
    rw [prevLink, peek, heq p hp]
    rfl
  · intro p hp
    rw [nextLink, peek, heq p hp]
    rfl

/-- A timer of a list knows its slot, so the lists of two slots share no timer. -/
theorem SlotList.slot_unique {j : Nat} {q' : List (TimerCall × Nat)} (h : SlotList m i q)
    (h' : SlotList m j q') (hp : p ∈ timers q) (hp' : p ∈ timers q') : i = j := by
  obtain ⟨e, he, rfl⟩ := List.mem_map.mp hp
  obtain ⟨e', he', heq⟩ := List.mem_map.mp hp'
  obtain ⟨t, ht, -, hslot, -, -⟩ := (h.entries e he).alive
  obtain ⟨t', ht', -, hslot', -, -⟩ := (h'.entries e' he').alive
  rw [heq, ht] at ht'
  rw [← hslot, ← hslot', Option.some.inj ht']

/-- Following the pointer to a timer in the list. -/
theorem SlotList.deref (h : SlotList m i (a ++ e :: b)) :
    ∃ t, m.nodes e.1.timer = some t ∧ t.rotation = e.2 ∧ t.timeSlot = i ∧
      t.cbFunc = some e.1.cbFunc ∧ t.userData = e.1.userData ∧
      t.prev = (timers a).getLast? ∧ t.next = (timers b).head? := by
  have hmem : e ∈ a ++ e :: b := List.mem_append_right _ List.mem_cons_self
  obtain ⟨t, ht, hrot, hslot, hcb, hdata⟩ := (h.entries e hmem).alive
  have hlinks := h.links
  rw [timers_middle] at hlinks
  obtain ⟨hprev, hnext⟩ := hlinks.links
  rw [prevLink_eq ht] at hprev
  rw [nextLink_eq ht] at hnext
  exact ⟨t, ht, hrot, hslot, hcb, hdata, hprev, hnext⟩

/-- The neighbours of a timer that is not in the list are linked with each other. -/
theorem SlotList.remove (h : SlotList m i (a ++ e :: b))
    (hentry : ∀ p ∈ timers (a ++ b), entryAt m' p = entryAt m p)
    (hp : ∀ p ∈ timers (a ++ b),
      prevLink m' p = setAt (prevLink m) (timers b).head? (timers a).getLast? p)
    (hn : ∀ p ∈ timers (a ++ b),
      nextLink m' p = setAt (nextLink m) (timers a).getLast? (timers b).head? p) :
    SlotList m' i (a ++ b) := by
  have hlinks := h.links
  have hnodup := h.nodup
  rw [timers_middle] at hlinks hnodup
  rw [timers_append] at hp hn
  constructor
  · rw [timers_append]
    exact hlinks.remove hnodup hp hn
  · rw [timers_append]
    exact (List.nodup_middle.mp hnodup).of_cons
  · intro y hy
    have hmem : y ∈ a ++ e :: b := by
      rw [List.mem_append] at hy
      rw [List.mem_append, List.mem_cons]
      tauto
    exact (hentry _ (mem_timers hy)).trans (h.entries y hmem)

/-- The timer of an entry is not among the others. -/
theorem SlotList.notMem (h : SlotList m i (a ++ e :: b)) : e.1.timer ∉ timers (a ++ b) := by
  have hnodup := h.nodup
  rw [timers_middle, List.nodup_middle, ← timers_append] at hnodup
  exact (List.nodup_cons.mp hnodup).1

/-! ## Writes to one timer -/

/-- Writing to a live timer changes it. -/
theorem write_eq {t : TwTimer} (ht : m.nodes p = some t) (f : TwTimer → TwTimer) :
    m.write (some p) f = .ok { m with nodes := Function.update m.nodes p (some (f t)) } := by
  rw [WheelMemory.write, write_some ht]
  rfl

/-- Writing behind a pointer that is not null is writing. -/
theorem writeIfSome_eq {t : TwTimer} (ht : m.nodes p = some t) (f : TwTimer → TwTimer) :
    m.writeIfSome (some p) f = .ok { m with nodes := Function.update m.nodes p (some (f t)) } := by
  rw [WheelMemory.writeIfSome, writeIfSome_some ht]
  rfl

/-- A write that keeps the entry changes links of one timer only. -/
theorem write_keeps {t : TwTimer} (ht : m.nodes p = some t) (f : TwTimer → TwTimer)
    (hf : ((f t).rotation, (f t).timeSlot, (f t).cbFunc, (f t).userData) =
      (t.rotation, t.timeSlot, t.cbFunc, t.userData)) :
    ∃ m', m.write (some p) f = .ok m' ∧ SameEntries m m' ∧ Outside m m' [p] ∧
      prevLink m' = Function.update (prevLink m) p (f t).prev ∧
      nextLink m' = Function.update (nextLink m) p (f t).next := by
  refine ⟨_, write_eq ht f, ⟨?_, rfl, rfl⟩, ?_, ?_, ?_⟩
  · exact peek_update_same ht (by rw [hf])
  · intro r hr
    exact Function.update_of_ne (by simpa using hr) ..
  · exact peek_update ..
  · exact peek_update ..

/-- Setting a link on leaves the entries and the other links. -/
theorem setNext_spec {t : TwTimer} (ht : m.nodes p = some t) (v : Option Ptr) :
    ∃ m', m.write (some p) (fun u => { u with next := v }) = .ok m' ∧ SameEntries m m' ∧
      Outside m m' [p] ∧ prevLink m' = prevLink m ∧
      nextLink m' = Function.update (nextLink m) p v := by
  obtain ⟨m', hw, hs, ho, hp, hn⟩ := write_keeps ht (fun u => { u with next := v }) rfl
  refine ⟨m', hw, hs, ho, ?_, hn⟩
  rw [hp]
  exact Function.update_eq_self_iff.mpr (prevLink_eq ht).symm

/-- Setting a link back leaves the entries and the other links. -/
theorem setPrev_spec {t : TwTimer} (ht : m.nodes p = some t) (v : Option Ptr) :
    ∃ m', m.write (some p) (fun u => { u with prev := v }) = .ok m' ∧ SameEntries m m' ∧
      Outside m m' [p] ∧ prevLink m' = Function.update (prevLink m) p v ∧
      nextLink m' = nextLink m := by
  obtain ⟨m', hw, hs, ho, hp, hn⟩ := write_keeps ht (fun u => { u with prev := v }) rfl
  refine ⟨m', hw, hs, ho, hp, ?_⟩
  rw [hn]
  exact Function.update_eq_self_iff.mpr (nextLink_eq ht).symm

/-- The write of `prev` behind a test for null. -/
theorem setPrevIfSome_spec (l : List Ptr) (halive : ∀ p ∈ l, ∃ t, m.nodes p = some t) (v : Option Ptr) :
    ∃ m', m.writeIfSome l.head? (fun u => { u with prev := v }) = .ok m' ∧ SameEntries m m' ∧
      Outside m m' l ∧ prevLink m' = setAt (prevLink m) l.head? v ∧ nextLink m' = nextLink m := by
  cases l with
  | nil => exact ⟨m, rfl, .refl m, .refl m _, rfl, rfl⟩
  | cons p l =>
    obtain ⟨t, ht⟩ := halive p List.mem_cons_self
    obtain ⟨m', hw, hs, ho, hp, hn⟩ := setPrev_spec ht v
    refine ⟨m', hw, hs, ?_, hp, hn⟩
    apply ho.mono
    intro r hr
    rw [List.mem_singleton.mp hr]
    exact List.mem_cons_self

end Lists

end ServerListings.Interface.WheelSlots
