import ServerListings.Analysis.TickCallbacks
import ServerListings.Interface.TimerServices

/-!
# The sorted list and the time heap cannot be told apart

The same requests go to a sorted list and to a time heap. `del_timer` takes a timer out of the
list at once, but only takes the callback from a timer of the heap, which keeps its place until
it expires. Nevertheless both make the same calls in every heartbeat, at whatever times the
heartbeats are, as long as the array of the heap has room for each timer that is added and its
places have `int` numbers.
-/

set_option autoImplicit false

namespace ServerListings.Analysis.TimerServices

open Lib.CMem Lib.TimerService ServerListings.Model ServerListings.Interface
open ServerListings.Analysis.TickCallbacks

/-! ## One heartbeat of the heap -/

section Tick

variable {h : TimeHeap} {s : Store} {l : List Ptr}

/-- A heartbeat whose callbacks leave the heap alone pops the timers that are due in the order of
their times, calls those that have a callback, and deletes all of them. -/
theorem tick_in_order (cur : Int) (hh : Heap s h l) (hcap : 1 ≤ h.capacity)
    (hsize : h.curSize ≤ 2 ^ 30) :
    ∃ h' s' l' r, List.Perm r (l.filter (expireOf s · ≤ cur)) ∧
      h.tickCalling (fun _ _ => []) s cur = .ok (h', s') ∧ Heap s' h' l' ∧
      h'.capacity = h.capacity ∧ l'.Perm (l.filter (cur < expireOf s ·)) ∧
      r.Pairwise (expireOf s · ≤ expireOf s ·) ∧ s'.timers = s.timers ∧
      (∀ p ∈ s'.deleted, p ∈ s.deleted ∨ p ∈ r) ∧
      s'.calls = s.calls ++ r.filterMap (callOf <| s.timers ·) := by
  obtain ⟨h', l', r₁, s', htick, hh', hcap', hperm, hr₁, htimers, hdeleted, -⟩ :=
    tick_spec cur hh hcap
  have hint := ((tickCalling_same h s cur).eq_of hsize).trans htick
  have hfew : FewTimers (fun _ _ => []) h s :=
    ⟨hsize, fun b _ => callbackMeets_of (fun _ _ => trivial) (fun _ _ => trivial) b⟩
  have hallowed : AllCallbacksAllowed (fun _ _ => []) cur h s :=
    fun b _ => callbackMeets_of (fun _ _ => trivial) (fun _ _ => trivial) b
  obtain ⟨passes, b, hcalling, hfired⟩ := fires_of_few hh hallowed hfew hcap
  rw [hint] at hcalling
  obtain rfl := Except.ok.inj hcalling
  have hcalls : passes.filterMap (fun π => callOf π.members) =
      (passes.map Pass.timer).filterMap (callOf <| s.timers ·) := by
    rw [List.filterMap_map]
    apply List.filterMap_congr
    intro π hπ
    obtain ⟨before, after, hsplit⟩ := List.append_of_mem hπ
    have hnone : before.flatMap (Pass.made fun _ _ => []) = [] := by
      apply List.flatMap_eq_nil_iff.mpr
      intro π' _
      exact madeCalls_nil ..
    rw [Function.comp_apply, hfired.members before π after hsplit, hnone, afterCalls_nil]
  refine ⟨h', s', l', passes.map Pass.timer, hfired.handled, hint,
    ⟨hh'.toHolds, hh'.order.congr htimers⟩, hcap', hperm, hfired.inOrder, htimers, ?_, ?_⟩
  · intro q hq
    rw [hdeleted, List.mem_append] at hq
    exact hq.imp_right fun hq => (hr₁.trans hfired.handled.symm).mem_iff.mp hq
  · rw [← hcalls]
    exact hfired.calls

end Tick

/-! ## The heap implements the ledger -/

/-- The timer object of an entry. -/
def heapTimer (e : TimerEntry) : HeapTimer :=
  ⟨e.deadline, if e.live then some e.call.1 else none, e.call.2⟩

/-- The heap holds the timers of all entries of the ledger, cancelled ones too, and none of
them was deleted. -/
structure HeapHolds (cap : Nat) (s : TimeHeap × Store) (a : TimerLedger) : Prop where
  heap : ∃ l, Heap s.2 s.1 l ∧ l.Perm (a.entries.map (·.name))
  capacity : s.1.capacity = cap
  nodup : (a.entries.map (·.name)).Nodup
  timers : ∀ e ∈ a.entries, s.2.timers e.name = heapTimer e
  used : ∀ e ∈ a.entries, e.name ∈ a.used
  deleted : ∀ p ∈ s.2.deleted, p ∈ a.used ∧ p ∉ a.entries.map (·.name)

/-- An addition that finds room leaves the capacity as it is. -/
theorem addTimer_capacity {h h' : TimeHeap} {s s' : Store} {timer : Option Ptr}
    (hroom : h.curSize < h.capacity) (hadd : h.addTimer s timer = .ok (h', s')) :
    h'.capacity = h.capacity := by
  cases timer with
  | none =>
    obtain ⟨rfl, -⟩ := Prod.mk.inj (Except.ok.inj hadd)
    rfl
  | some p =>
    have hmake : h.makeRoom s = .ok (h, s) := if_neg (Nat.not_le.mpr hroom)
    rw [TimeHeap.addTimer, hmake, ok_bind] at hadd
    obtain ⟨⟨array, hole⟩, -, hadd⟩ := Lib.CMem.bind_eq_ok.mp hadd
    obtain ⟨array', -, hadd⟩ := Lib.CMem.bind_eq_ok.mp hadd
    obtain ⟨rfl, -⟩ := Prod.mk.inj (Except.ok.inj hadd)
    rfl

/-- There is a place in the array for the timer that is added. -/
def Room (cap : Nat) (a : TimerLedger) : TimerRequest → Prop
  | .add _ _ _ => a.entries.length < cap
  | .cancel _ => True
  | .tick _ => True

instance (cap : Nat) (a : TimerLedger) (r : TimerRequest) : Decidable (Room cap a r) :=
  match r with
  | .add _ _ _ => inferInstanceAs (Decidable (a.entries.length < cap))
  | .cancel _ => .isTrue trivial
  | .tick _ => .isTrue trivial

section Heap

variable {cap : Nat} {memory : Nat → Option Ptr} {s : TimeHeap × Store} {a : TimerLedger} {p : Ptr}
  {d : Int} {c : Nat × Nat}

/-- Cancelling leaves the name. -/
theorem entry_cancel_name (e : TimerEntry) : (e.cancel p).name = e.name := by
  unfold Entry.cancel
  split <;> rfl

/-- An empty heap holds the empty ledger. -/
theorem heapHolds_create (cap : Nat) (last : Int) (timers : Ptr → HeapTimer) :
    HeapHolds cap (TimeHeap.create cap, ⟨timers, [], []⟩) (Ledger.start last) where
  heap := ⟨[], ⟨create_holds cap, heapOrdered_nil _⟩, .refl _⟩
  capacity := rfl
  nodup := List.nodup_nil
  timers := by
    intro e he
    cases he
  used := by
    intro e he
    cases he
  deleted := by
    intro p hp
    cases hp

/-- The used part of the array has a place for each entry of the ledger. -/
theorem HeapHolds.curSize (h : HeapHolds cap s a) : s.1.curSize = a.entries.length := by
  obtain ⟨l, hh, hperm⟩ := h.heap
  rw [hh.size, hperm.length_eq, List.length_map]

/-- There are no more entries than places. -/
theorem HeapHolds.length_le (h : HeapHolds cap s a) : a.entries.length ≤ cap := by
  obtain ⟨l, hh, hperm⟩ := h.heap
  have hle := hh.length_le
  rwa [hperm.length_eq, List.length_map, h.capacity] at hle

/-- With room `add_timer` answers an addition. -/
theorem HeapHolds.add (h : HeapHolds cap s a) (hfew : cap ≤ 2 ^ 30) (hp : p ∉ a.used)
    (hroom : a.entries.length < cap) :
    ∃ s', heapServe memory s (.add p d c) = .ok (s', []) ∧ HeapHolds cap s' (a.after (.add p d c)) := by
  obtain ⟨l, hh, hperm⟩ := h.heap
  have hname : ∀ e ∈ a.entries, e.name ≠ p := by
    rintro e he rfl
    exact hp (h.used e he)
  have hfresh : p ∉ a.entries.map (·.name) := by
    intro hmem
    obtain ⟨e, he, hep⟩ := List.mem_map.mp hmem
    exact hname e he hep
  have hh₁ : Heap (s.2.make p ⟨d, some c.1, c.2⟩) s.1 l := by
    refine ⟨hh.toHolds, hh.order.of_expire ?_⟩
    intro q hq
    apply expireOf_make_ne
    rintro rfl
    exact hfresh (hperm.mem_iff.mp hq)
  have hlt : s.1.curSize < s.1.capacity := by
    rw [h.curSize, h.capacity]
    exact hroom
  have hsize : s.1.curSize < 2 ^ 30 := by
    rw [h.curSize]
    exact Nat.lt_of_lt_of_le hroom hfew
  obtain ⟨h', l', hadd, hh', -, hperm'⟩ :=
    addTimer_spec hh₁ (Nat.lt_of_le_of_lt (Nat.zero_le _) hlt) p
  have hcap' : h'.capacity = s.1.capacity := addTimer_capacity hlt hadd
  rw [copied, if_pos hlt, List.append_nil] at hadd
  refine ⟨(h', s.2.make p ⟨d, some c.1, c.2⟩), ?_, ⟨l', ?_, ?_⟩, hcap'.trans h.capacity, ?_, ?_, ?_, ?_⟩
  · rw [heapServe, (addTimerInt_same memory _ (some p)).eq_of (hh₁.toHolds.intsFit hsize), hadd]
    rfl
  · exact ⟨hh'.toHolds, hh'.order⟩
  · exact hperm'.trans (hperm.cons p)
  · exact List.nodup_cons.mpr ⟨hfresh, h.nodup⟩
  · intro e he
    rcases List.mem_cons.mp he with rfl | he
    · exact if_pos rfl
    · exact (if_neg (hname e he)).trans (h.timers e he)
  · intro e he
    rcases List.mem_cons.mp he with rfl | he
    · exact List.mem_cons_self
    · exact List.mem_cons_of_mem _ (h.used e he)
  · intro q hq
    obtain ⟨hused, hnot⟩ := h.deleted q hq
    refine ⟨List.mem_cons_of_mem _ hused, ?_⟩
    rw [Ledger.after, List.map_cons, List.mem_cons, not_or]
    refine ⟨?_, hnot⟩
    rintro rfl
    exact hp hused

/-- `del_timer` answers a cancellation. -/
theorem HeapHolds.cancel (h : HeapHolds cap s a) :
    HeapHolds cap (s.1, delTimer s.2 (some p)) (a.after (.cancel p)) := by
  have hnames : (a.after (.cancel p)).entries.map (·.name) = a.entries.map (·.name) := by
    rw [Ledger.after, List.map_map]
    apply List.map_congr_left
    intro e _
    exact entry_cancel_name e
  obtain ⟨l, hh, hperm⟩ := h.heap
  refine ⟨⟨l, ?_, ?_⟩, h.capacity, ?_, ?_, ?_, ?_⟩
  · exact ⟨hh.toHolds, hh.order.of_expire fun q _ => expireOf_delTimer s.2 (some p) q⟩
  · rw [hnames]
    exact hperm
  · rw [hnames]
    exact h.nodup
  · intro e' he'
    obtain ⟨e, he, rfl⟩ := List.mem_map.mp he'
    have htimer := h.timers e he
    rw [entry_cancel_name]
    by_cases hp : e.name = p
    · rw [Entry.cancel, if_pos hp, ← hp]
      simp only [delTimer, if_true, htimer, heapTimer, Bool.false_eq_true, if_false]
    · rw [Entry.cancel, if_neg hp]
      exact (if_neg hp).trans htimer
  · intro e' he'
    obtain ⟨e, he, rfl⟩ := List.mem_map.mp he'
    rw [entry_cancel_name]
    exact h.used e he
  · intro q hq
    rw [hnames]
    exact h.deleted q hq

/-- The calls of the timers of entries that a heartbeat pops. -/
theorem filterMap_callOf {es : List TimerEntry} {timers : Ptr → HeapTimer}
    (htimers : ∀ e ∈ es, timers e.name = heapTimer e) :
    (es.map (·.name)).filterMap (callOf <| timers ·) = (es.filter (·.live)).map (·.call) := by
  rw [List.filterMap_map]
  induction es with
  | nil => rfl
  | cons e es ih =>
    have htimer := htimers e List.mem_cons_self
    have hrest := ih fun x hx => htimers x (List.mem_cons_of_mem _ hx)
    cases hlive : e.live with
    | true =>
      have hcall : ((callOf <| timers ·) ∘ fun e : TimerEntry => e.name) e = some e.call := by
        rw [Function.comp_apply, htimer, heapTimer, if_pos hlive]
        rfl
      rw [List.filterMap_cons_some hcall, List.filter_cons_of_pos hlive, List.map_cons, hrest]
    | false =>
      have hcall : ((callOf <| timers ·) ∘ fun e : TimerEntry => e.name) e = none := by
        rw [Function.comp_apply, htimer, heapTimer, if_neg (by rw [hlive]; simp)]
        rfl
      rw [List.filterMap_cons_none hcall, List.filter_cons_of_neg (by rw [hlive]; simp), hrest]

/-- `tick` answers a tick. -/
theorem HeapHolds.tick (h : HeapHolds cap s a) (hcap : 1 ≤ cap) (hfew : cap ≤ 2 ^ 30) (cur : Int) :
    ∃ s' calls, heapServe memory s (.tick cur) = .ok (s', calls) ∧ HeapHolds cap s' (a.after (.tick cur)) ∧
      a.Answers (.tick cur) calls := by
  obtain ⟨l, hh, hperm⟩ := h.heap
  obtain ⟨h', s', l', r, hr, htick, hh', hcap', hperm', hsorted, htimers, hdeleted, hcalls⟩ :=
    tick_in_order cur hh (by rw [h.capacity]; exact hcap)
      (by rw [h.curSize]; exact h.length_le.trans hfew)
  have hexpire : ∀ e ∈ a.entries, expireOf s.2 e.name = e.deadline := by
    intro e he
    rw [expireOf, h.timers e he]
    rfl
  have hfilter : ∀ P : Int → Bool, (a.entries.map (·.name)).filter (P <| expireOf s.2 ·) =
      (a.entries.filter (P ·.deadline)).map (·.name) := by
    intro P
    rw [List.filter_map]
    congr 1
    apply List.filter_congr
    intro e he
    rw [Function.comp_apply, hexpire e he]
  have hdue : r.Perm ((a.entries.filter (·.deadline ≤ cur)).map (·.name)) :=
    hr.trans ((hperm.filter _).trans (.of_eq (hfilter (decide <| · ≤ cur))))
  obtain ⟨es, hes, rfl⟩ := exists_map_of_perm hdue
  have hmem : ∀ e ∈ es, e ∈ a.entries := fun e he => List.mem_of_mem_filter (hes.mem_iff.mp he)
  have horder : es.Pairwise (·.deadline ≤ ·.deadline) := by
    apply List.Pairwise.imp_of_mem _ (List.pairwise_map.mp hsorted)
    intro x y hx hy hle
    rwa [hexpire x (hmem x hx), hexpire y (hmem y hy)] at hle
  rw [filterMap_callOf fun e he => h.timers e (hmem e he)] at hcalls
  have hlater : (a.after (.tick cur)).entries.map (·.name) =
      (a.entries.map (·.name)).filter (cur < expireOf s.2 ·) := (hfilter (decide <| cur < ·)).symm
  refine ⟨(h', s'), (es.filter (·.live)).map (·.call), ?_, ⟨⟨l', hh', ?_⟩, hcap'.trans h.capacity,
    ?_, ?_, ?_, ?_⟩, _, ?_, horder.filter _, rfl⟩
  · rw [heapServe, htick, ok_bind]
    show Except.ok _ = _
    rw [hcalls, List.drop_left]
  · rw [hlater]
    exact hperm'.trans (hperm.filter _)
  · rw [hlater]
    exact h.nodup.filter _
  · intro e he
    rw [htimers]
    exact h.timers e (List.mem_of_mem_filter he)
  · intro e he
    exact h.used e (List.mem_of_mem_filter he)
  · intro q hq
    rcases hdeleted q hq with hq | hq
    · obtain ⟨hused, hnot⟩ := h.deleted q hq
      refine ⟨hused, ?_⟩
      rw [hlater]
      exact fun hmem => hnot (List.mem_of_mem_filter hmem)
    · obtain ⟨e, he, rfl⟩ := List.mem_map.mp hq
      refine ⟨h.used e (hmem e he), ?_⟩
      rw [hlater, List.mem_filter, hexpire e (hmem e he)]
      rintro ⟨-, hlate⟩
      have hle := (List.mem_filter.mp (hes.mem_iff.mp he)).2
      exact absurd (of_decide_eq_true hlate) (not_lt.mpr (of_decide_eq_true hle))
  · apply (hes.filter _).trans
    unfold Ledger.due Ledger.active
    rw [List.filter_filter, List.filter_filter]
    apply List.Perm.of_eq
    apply List.filter_congr
    intro e _
    exact Bool.and_comm ..

/-- The time heap implements the ledger as long as its array has room. -/
theorem heap_implements (hcap : 1 ≤ cap) (hfew : cap ≤ 2 ^ 30) :
    Implements (heapServe memory) (Room cap) (HeapHolds cap) where
  answer := by
    intro s a r h hallow hroom
    cases r with
    | add p d c =>
      obtain ⟨s', hs, h'⟩ := h.add hfew hallow hroom
      exact ⟨s', [], hs, h', rfl⟩
    | cancel p => exact ⟨_, [], rfl, h.cancel, rfl⟩
    | tick cur => exact h.tick hcap hfew cur

end Heap

/-! ## The two containers -/

/-- Any requests on an empty list and on an empty heap, of which each cancels a timer that is
pending if it cancels one, and whose additions find room in the array of the heap, succeed on both.
Each heartbeat makes the same calls on both, and in the same order if no two of the timers that it
calls have the same time. -/
theorem list_heap_agree (memory : Nat → Option Ptr) (cap : Nat) (hcap : 1 ≤ cap)
    (hfew : cap ≤ 2 ^ 30) (m : Memory) (hm : ∀ p, m.nodes p = none) (timers : Ptr → HeapTimer)
    (last : Int) (rs : List TimerRequest) (hrs : AllowedAll (Room cap) (Ledger.start last) rs) :
    ∃ cs t cs' t', serveAll listServe (SortTimerLst.create, m) rs = .ok (cs, t) ∧
      serveAll (heapServe memory) (TimeHeap.create cap, ⟨timers, [], []⟩) rs = .ok (cs', t') ∧
      SameAll (Ledger.start last) rs cs cs' :=
  (list_implements.mono fun _ _ _ => trivial).agree (heap_implements hcap hfew)
    (listHolds_create last m hm) (heapHolds_create cap last timers) hrs

/-- A timer that was cancelled and two that are due in the opposite order of their addition. -/
def cancelledFirst : List TimerRequest :=
  [.add 1 5 (7, 1), .add 2 4 (7, 2), .cancel 1, .add 3 3 (7, 3), .tick 5]

/-- The cancelled timer still has the last place of the array when the third one is added. -/
theorem list_heap_agree_cancelled : ∃ cs t cs' t',
    serveAll listServe (SortTimerLst.create, ⟨fun _ => none, 0, []⟩) cancelledFirst = .ok (cs, t) ∧
      serveAll (heapServe fun _ => none) (TimeHeap.create 3, ⟨fun _ => ⟨0, none, 0⟩, [], []⟩)
        cancelledFirst = .ok (cs', t') ∧ SameAll (Ledger.start 0) cancelledFirst cs cs' :=
  list_heap_agree _ 3 (by decide) (by decide) _ (fun _ => rfl) _ 0 cancelledFirst (by decide)

end ServerListings.Analysis.TimerServices
