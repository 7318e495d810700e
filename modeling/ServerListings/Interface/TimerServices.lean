import Mathlib.Data.List.Perm.Basic
import ServerListings.Interface.HeapOperations
import ServerListings.Interface.TimerListSteps
import ServerListings.Model.TimerServices

/-!
# The sorted list implements the timer ledger

`ListHolds s a` says that the list object of `s` has the active entries of the ledger `a`, in
some order that is sorted by deadline, and that the timers in memory carry their calls.
-/

set_option autoImplicit false

namespace ServerListings.Interface

open Lib.CMem Lib.StableQueue Lib.TimerService ServerListings.Model

/-- The entries of a ledger of timers. -/
abbrev TimerEntry := Entry Ptr Int (Nat × Nat)

/-- A ledger of timers. -/
abbrev TimerLedger := Ledger Ptr Int (Nat × Nat)

/-- The name and the deadline of an entry. -/
def keyed (e : TimerEntry) : Ptr × Int := (e.name, e.deadline)

section Ledgers

variable {a : TimerLedger} {p : Ptr} {es : List TimerEntry} {cur : Int}

/-- A new timer is active. -/
theorem active_add (p : Ptr) (d : Int) (c : Nat × Nat) :
    (a.after (.add p d c)).active = ⟨p, d, c, true⟩ :: a.active :=
  List.filter_cons_of_pos rfl

/-- A cancelled timer is not active any more. -/
theorem cancel_live (e : TimerEntry) :
    (e.cancel p).live = (e.live && decide (e.name ≠ p)) := by
  unfold Entry.cancel
  by_cases hp : e.name = p
  · rw [if_pos hp]
    simp [hp]
  · rw [if_neg hp]
    simp [hp]

/-- A cancellation leaves the other timers active. -/
theorem active_cancel (p : Ptr) :
    (a.after (.cancel p)).active = a.active.filter fun e => decide (e.name ≠ p) := by
  show (a.entries.map (Entry.cancel p)).filter (·.live) = _
  unfold Ledger.active
  rw [List.filter_map, List.filter_filter]
  have hfilter : a.entries.filter ((·.live) ∘ Entry.cancel p) =
      a.entries.filter fun e => decide (e.name ≠ p) && e.live := by
    apply List.filter_congr
    intro e _
    rw [Function.comp_apply, cancel_live, Bool.and_comm]
  rw [hfilter]
  -- the entries that are kept do not have the name, so cancelling leaves them alone
  conv_rhs => rw [← List.map_id (a.entries.filter _)]
  apply List.map_congr_left
  intro e he
  have hne : e.name ≠ p := by
    have hboth := (List.mem_filter.mp he).2
    simp only [Bool.and_eq_true, decide_eq_true_eq] at hboth
    exact hboth.1
  rw [Entry.cancel, if_neg hne, id]

/-- A tick leaves the timers active that are not due. -/
theorem active_tick (cur : Int) :
    (a.after (.tick cur)).active = a.active.filter fun e => decide (cur < e.deadline) := by
  show (a.entries.filter _).filter _ = (a.entries.filter _).filter _
  rw [List.filter_filter, List.filter_filter]
  apply List.filter_congr
  intro e _
  exact Bool.and_comm ..

/-- The timers of the entries, by name. -/
theorem names_keyed (es : List TimerEntry) : names (es.map keyed) = es.map (·.name) := by
  unfold names
  rw [List.map_map]
  rfl

/-- Removing a timer by its name is filtering the entries. -/
theorem remove_keyed (p : Ptr) (es : List TimerEntry) :
    remove p (es.map keyed) = (es.filter fun e => decide (e.name ≠ p)).map keyed := by
  unfold remove
  rw [List.filter_map]
  rfl

/-- The timers that are left after a tick. -/
theorem later_keyed (cur : Int) (es : List TimerEntry) :
    later cur (es.map keyed) = (es.filter fun e => decide (cur < e.deadline)).map keyed := by
  unfold later
  rw [List.filter_map]
  rfl

/-- The timers that a tick calls. -/
theorem due_keyed (cur : Int) (es : List TimerEntry) :
    due cur (es.map keyed) = (es.filter fun e => decide (e.deadline ≤ cur)).map keyed := by
  unfold due
  rw [List.filter_map]
  rfl

/-- Sorted timers are entries in the order of their deadlines. -/
theorem sorted_keyed (h : Sorted (es.map keyed)) : es.Pairwise (·.deadline ≤ ·.deadline) :=
  List.Pairwise.of_map keyed (fun _ _ hle => hle) h

/-- A rearrangement of what `f` reads in the entries comes from one of the entries. -/
theorem exists_map_of_perm {β : Type} {f : TimerEntry → β} {q : List β} (h : q.Perm (es.map f)) :
    ∃ es' : List TimerEntry, es'.Perm es ∧ q = es'.map f := by
  have hcomp : Relation.Comp (· = List.map f ·) List.Perm q es := by
    rw [List.eq_map_comp_perm]
    exact h
  obtain ⟨es', hq, hperm⟩ := hcomp
  exact ⟨es', hperm, hq⟩

end Ledgers

/-! ## The sorted list -/

/-- The data of the timer of an entry. -/
def listData (e : TimerEntry) : Int × Option Nat × Nat := (e.deadline, some e.call.1, e.call.2)

/-- The list object and its memory hold the active entries of the ledger; a name that was not
used is the address of no timer. -/
structure ListHolds (s : SortTimerLst × Memory) (a : TimerLedger) : Prop where
  entries : ∃ es : List TimerEntry, es.Perm a.active ∧ TimerList s.1 s.2 (es.map keyed) ∧
    ∀ e ∈ es, dataOf s.2 e.name = some (listData e)
  fresh : ∀ p, p ∉ a.used → dataOf s.2 p = none

section List

variable {s : SortTimerLst × Memory} {a : TimerLedger} {p : Ptr} {d : Int} {c : Nat × Nat}

/-- The empty list holds what an empty ledger says. -/
theorem listHolds_create (last : Int) (m : Memory) (hm : ∀ p, m.nodes p = none) :
    ListHolds (SortTimerLst.create, m) (Ledger.start last) := by
  refine ⟨⟨[], .refl _, .create m, ?_⟩, ?_⟩
  · intro e he
    cases he
  · intro p _
    rw [dataOf, observe, hm]
    rfl

/-- The list serves an addition. -/
theorem ListHolds.add (h : ListHolds s a) (hp : p ∉ a.used) :
    ∃ s', listServe s (.add p d c) = .ok (s', []) ∧ ListHolds s' (a.after (.add p d c)) := by
  obtain ⟨es, hperm, hlist, hdata⟩ := h.entries
  have hnone : s.2.nodes p = none := nodes_eq_none (h.fresh p hp)
  obtain ⟨l', m', hadd, hlist', hsame⟩ :=
    hlist.make_add (t := ⟨d, some c.1, c.2, none, none⟩) hnone rfl rfl rfl
  have hput : (enqueue (p, d) (es.map keyed)).Perm ((⟨p, d, c, true⟩ :: es : List TimerEntry).map keyed) :=
    enqueue_perm (p, d) _
  obtain ⟨es', hes', hq⟩ := exists_map_of_perm hput
  rw [hq] at hlist'
  refine ⟨(l', m'), ?_, ⟨es', ?_, hlist', ?_⟩, ?_⟩
  · rw [listServe, hadd]
    rfl
  · rw [active_add]
    exact hes'.trans (hperm.cons _)
  · intro e he
    rw [hsame.data]
    rcases List.mem_cons.mp (hes'.mem_iff.mp he) with rfl | he
    · exact observe_make_self
    · rw [dataOf, observe_make]
      · exact hdata e he
      · intro heq
        have hd := hdata e he
        rw [heq, h.fresh p hp] at hd
        cases hd
  · intro r hr
    rw [hsame.data, dataOf, observe_make (List.ne_of_not_mem_cons hr)]
    exact h.fresh r (List.not_mem_of_not_mem_cons hr)

/-- The list serves a cancellation of an active timer. -/
theorem ListHolds.cancel (h : ListHolds s a) (hp : ∃ e ∈ a.active, e.name = p) :
    ∃ s', listServe s (.cancel p) = .ok (s', []) ∧ ListHolds s' (a.after (.cancel p)) := by
  obtain ⟨es, hperm, hlist, hdata⟩ := h.entries
  obtain ⟨e, he, rfl⟩ := hp
  have hmem : e.name ∈ names (es.map keyed) := by
    rw [names_keyed]
    exact List.mem_map_of_mem (hperm.mem_iff.mpr he)
  obtain ⟨l', m', hdel, hlist', hdeleted, -⟩ := hlist.del hmem
  rw [remove_keyed] at hlist'
  refine ⟨(l', m'), ?_, ⟨_, ?_, hlist', ?_⟩, ?_⟩
  · rw [listServe, hdel]
    rfl
  · rw [active_cancel]
    exact hperm.filter _
  · intro x hx
    obtain ⟨hx, hne⟩ := List.mem_filter.mp hx
    rw [hdeleted.data x.name (by simpa using hne)]
    exact hdata x hx
  · intro r hr
    by_cases hre : r ∈ [e.name]
    · rw [dataOf, observe, hdeleted.gone r hre]
      rfl
    · rw [hdeleted.data r hre]
      exact h.fresh r hr

/-- The calls that a walk over entries in the list makes. -/
theorem callAt_listData {es : List TimerEntry} {m : Memory}
    (hdata : ∀ e ∈ es, dataOf m e.name = some (listData e)) :
    (es.map keyed).map (callAt m ·.1) = (es.map (·.call)).map some := by
  rw [List.map_map, List.map_map]
  apply List.map_congr_left
  intro e he
  rw [Function.comp_apply, callAt, keyed, hdata e he]
  rfl

/-- The list serves a tick with the calls that are due. -/
theorem ListHolds.tick (h : ListHolds s a) (cur : Int) :
    ∃ s' calls, listServe s (.tick cur) = .ok (s', calls) ∧ ListHolds s' (a.after (.tick cur)) ∧
      a.Answers (.tick cur) calls := by
  obtain ⟨es, hperm, hlist, hdata⟩ := h.entries
  obtain ⟨l', m', htick, hlist', hdeleted, hcalls⟩ := hlist.tick_spec cur
  rw [later_keyed] at hlist'
  rw [due_keyed] at hdeleted hcalls
  rw [callAt_listData fun e he => hdata e (List.mem_of_mem_filter he), ← List.map_append] at hcalls
  have hnew : m'.calls = s.2.calls ++ (es.filter fun e => decide (e.deadline ≤ cur)).map (·.call) :=
    List.map_injective_iff.mpr (Option.some_injective _) hcalls
  have hsorted : es.Pairwise (·.deadline ≤ ·.deadline) := sorted_keyed hlist.sorted
  refine ⟨(l', m'), (es.filter fun e => decide (e.deadline ≤ cur)).map (·.call), ?_,
    ⟨⟨_, ?_, hlist', ?_⟩, ?_⟩, _, hperm.filter _, hsorted.filter _, rfl⟩
  · rw [listServe, htick, ok_bind]
    show Except.ok _ = _
    rw [hnew, List.drop_left]
  · rw [active_tick]
    exact hperm.filter _
  · intro e he
    obtain ⟨he, hlate⟩ := List.mem_filter.mp he
    have hnodup : (es.map (·.name)).Nodup := by
      rw [← names_keyed]
      exact hlist.nodup
    rw [hdeleted.data]
    · exact hdata e he
    · rw [names_keyed]
      intro hmem
      obtain ⟨x, hx, hxe⟩ := List.mem_map.mp hmem
      obtain ⟨hx, hdue⟩ := List.mem_filter.mp hx
      obtain rfl := List.inj_on_of_nodup_map hnodup hx he hxe
      exact absurd (of_decide_eq_true hlate) (not_lt.mpr (of_decide_eq_true hdue))
  · intro r hr
    by_cases hre : r ∈ names ((es.filter fun e => decide (e.deadline ≤ cur)).map keyed)
    · rw [dataOf, observe, hdeleted.gone r hre]
      rfl
    · rw [hdeleted.data r hre]
      exact h.fresh r hr

/-- The sorted list implements the ledger, whatever the clock. -/
theorem list_implements : Implements listServe (fun _ _ => True) ListHolds where
  answer := by
    intro s a r h hallow _
    cases r with
    | add p d c =>
      obtain ⟨s', hs, h'⟩ := h.add hallow
      exact ⟨s', [], hs, h', rfl⟩
    | cancel p =>
      obtain ⟨s', hs, h'⟩ := h.cancel hallow
      exact ⟨s', [], hs, h', rfl⟩
    | tick cur => exact h.tick cur

end List

end ServerListings.Interface
