import ServerListings.Interface.HeapOperations

/-!
# The time heap is a priority queue

`Run given h s` holds of every heap `h` and store `s` that a program reaches from one of the
two constructors by the operations of the class. It lists in `given` the timers that were
given to the heap and not yet popped. `Queue` is what a priority queue of these timers has to
satisfy, and `run_queue` says that each heap of a run satisfies it.
-/

set_option autoImplicit false

namespace ServerListings.Analysis.TimeHeapOrder

open Lib.CMem ServerListings.Model ServerListings.Interface

/-- The heaps that a program reaches. A timer is only added while it is not in the heap, and
only the memory of such a timer is used for a new one. -/
inductive Run : List Ptr → TimeHeap → Store → Prop where
  | create (cap : Nat) (s : Store) : 1 ≤ cap → Run [] (TimeHeap.create cap) s
  | ofArray {h : TimeHeap} (initArray : List Ptr) (capacity : Nat) (s : Store) :
      1 ≤ capacity → initArray.Nodup → initArray.length ≤ capacity →
      TimeHeap.ofArray s (initArray.map some) capacity = .ok (some h) → Run initArray h s
  | make {given : List Ptr} {h : TimeHeap} {s : Store} (p : Ptr) (t : HeapTimer) :
      Run given h s → p ∉ given → Run given h (s.make p t)
  | add {given : List Ptr} {h h' : TimeHeap} {s s' : Store} (timer : Option Ptr) :
      Run given h s → (∀ p, timer = some p → p ∉ given) → h.addTimer s timer = .ok (h', s') →
      Run (timer.toList ++ given) h' s'
  | del {given : List Ptr} {h : TimeHeap} {s : Store} (timer : Option Ptr) :
      Run given h s → Run given h (delTimer s timer)
  | pop {given : List Ptr} {h h' : TimeHeap} {s s' : Store} (first : Option Ptr) :
      Run given h s → h.top = .ok first → h.popTimer s = .ok (h', s') →
      Run (given.filter (some · ≠ first)) h' s'
  | tick {given : List Ptr} {h h' : TimeHeap} {s s' : Store} (cur : Int) :
      Run given h s → h.tick s cur = .ok (h', s') →
      Run (given.filter (cur < expireOf s ·)) h' s'

/-- A priority queue of the timers `given`: each is in the used part of the array exactly
once, the parents are no later than their children, `top` is a least timer and `pop_timer`
removes exactly that one, and no operation faults. -/
structure Queue (given : List Ptr) (h : TimeHeap) (s : Store) : Prop where
  room : h.curSize ≤ h.capacity
  nodup : given.Nodup
  once : (h.array.take h.curSize).Perm (given.map some)
  order : ∀ i, 0 < i → i < h.curSize → ∃ p q, load h.array ((i - 1) / 2) = .ok (some p) ∧
    load h.array i = .ok (some q) ∧ expireOf s p ≤ expireOf s q
  top_none : given = [] → h.top = .ok none
  top_least : given ≠ [] →
    ∃ x ∈ given, h.top = .ok (some x) ∧ ∀ y ∈ given, expireOf s x ≤ expireOf s y
  pop_top : ∀ x, h.top = .ok (some x) → ∃ h' s', h.popTimer s = .ok (h', s') ∧
    (h'.array.take h'.curSize).Perm ((given.erase x).map some)
  add_ok : ∀ timer, ∃ h' s', h.addTimer s timer = .ok (h', s')
  pop_ok : ∃ h' s', h.popTimer s = .ok (h', s')
  tick_ok : ∀ cur, ∃ h' s', h.tick s cur = .ok (h', s')

/-! ## What one operation preserves -/

section Steps

variable {given l : List Ptr} {h : TimeHeap} {s : Store}

/-- The invariant of a run: the array holds the given timers as a heap. -/
structure Keeps (given : List Ptr) (h : TimeHeap) (s : Store) : Prop where
  heap : ∃ l, Heap s h l ∧ l.Perm given
  nodup : given.Nodup
  capacity : 1 ≤ h.capacity

/-- The order does not depend on anything but the times of the timers. -/
theorem Keeps.of_expire {s' : Store} (hk : Keeps given h s)
    (heq : ∀ p ∈ given, expireOf s' p = expireOf s p) : Keeps given h s' := by
  obtain ⟨l, hheap, hperm⟩ := hk.heap
  refine ⟨⟨l, ⟨hheap.toHolds, ?_⟩, hperm⟩, hk.nodup, hk.capacity⟩
  apply hheap.order.of_expire
  intro p hp
  exact heq p (hperm.mem_iff.mp hp)

/-- A timer is added. -/
theorem Keeps.add (hk : Keeps given h s) {timer : Option Ptr}
    (hnew : ∀ p, timer = some p → p ∉ given) :
    ∃ h' s', h.addTimer s timer = .ok (h', s') ∧ Keeps (timer.toList ++ given) h' s' := by
  cases timer with
  | none => exact ⟨h, s, rfl, hk⟩
  | some p =>
    obtain ⟨l, hheap, hperm⟩ := hk.heap
    obtain ⟨h', l', hadd, hheap', hcap, hperm'⟩ := addTimer_spec hheap hk.capacity p
    refine ⟨h', _, hadd, ⟨l', ⟨hheap'.toHolds, hheap'.order⟩, hperm'.trans (hperm.cons p)⟩, ?_, hcap⟩
    exact List.nodup_cons.mpr ⟨hnew p rfl, hk.nodup⟩

/-- To take one timer out of distinct ones is to keep the others. -/
theorem filter_ne_eq_erase (hnodup : given.Nodup) (x : Ptr) :
    given.filter (some · ≠ some x) = given.erase x := by
  rw [hnodup.erase_eq_filter]
  apply List.filter_congr
  intro p _
  simp only [ne_eq, Option.some.injEq, decide_not, bne, beq_eq_decide]

/-- The first timer is taken out. -/
theorem Keeps.pop (hk : Keeps given h s) :
    ∃ first h' s', h.top = .ok first ∧ h.popTimer s = .ok (h', s') ∧
      Keeps (given.filter (some · ≠ first)) h' s' := by
  obtain ⟨l, hheap, hperm⟩ := hk.heap
  cases l with
  | nil =>
    obtain rfl := hperm.nil_eq
    refine ⟨none, h, s, ?_, ?_, hk⟩
    · rw [TimeHeap.top, hheap.empty]
      rfl
    · rw [TimeHeap.popTimer, hheap.empty]
      rfl
  | cons x l =>
    obtain ⟨h', l', hpop, hheap', hcap, hperm'⟩ := popTimer_spec hheap
    refine ⟨some x, h', _, hheap.top, hpop,
      ⟨l', ⟨hheap'.toHolds, hheap'.order⟩, ?_⟩, hk.nodup.filter _, hcap ▸ hk.capacity⟩
    rw [filter_ne_eq_erase hk.nodup]
    apply hperm'.trans
    have herase := hperm.erase x
    rwa [List.erase_cons_head] at herase

/-- The timers that are due are taken out. -/
theorem Keeps.tick (hk : Keeps given h s) (cur : Int) :
    ∃ h' s', h.tick s cur = .ok (h', s') ∧ Keeps (given.filter (cur < expireOf s ·)) h' s' := by
  obtain ⟨l, hheap, hperm⟩ := hk.heap
  obtain ⟨h', l', r, s', htick, hheap', hcap, hperm', -, htimers, -, -⟩ :=
    tick_spec cur hheap hk.capacity
  exact ⟨h', s', htick, ⟨l', ⟨hheap'.toHolds, hheap'.order.congr htimers⟩,
    hperm'.trans (hperm.filter _)⟩, hk.nodup.filter _, hcap ▸ hk.capacity⟩

/-- The invariant holds in every state of a run; the induction is on the run. -/
theorem run_keeps (hrun : Run given h s) : Keeps given h s := by
  induction hrun with
  | create cap s hcap =>
    exact ⟨⟨[], ⟨create_holds cap, heapOrdered_nil s⟩, .refl _⟩, List.nodup_nil, hcap⟩
  | ofArray initArray capacity s hcap hnodup hle hok =>
    obtain ⟨h', l, hbuild, hheap, hcap', hperm⟩ := ofArray_spec s initArray capacity hle
    obtain rfl := Option.some.inj (result_unique hbuild hok)
    exact ⟨⟨l, hheap, hperm⟩, hnodup, hcap' ▸ hcap⟩
  | make p t _ hp ih =>
    apply ih.of_expire
    intro q hq
    have hne : q ≠ p := by
      rintro rfl
      exact hp hq
    exact expireOf_make_ne _ t hne
  | add timer _ hnew hadd ih =>
    obtain ⟨h', s', hadd', hk⟩ := ih.add hnew
    obtain ⟨rfl, rfl⟩ := results_unique hadd' hadd
    exact hk
  | del timer _ ih => exact ih.of_expire fun p _ => expireOf_delTimer _ timer p
  | pop first _ htop hpop ih =>
    obtain ⟨first', h', s', htop', hpop', hk⟩ := ih.pop
    obtain rfl := result_unique htop' htop
    obtain ⟨rfl, rfl⟩ := results_unique hpop' hpop
    exact hk
  | tick cur _ htick ih =>
    obtain ⟨h', s', htick', hk⟩ := ih.tick cur
    obtain ⟨rfl, rfl⟩ := results_unique htick' htick
    exact hk

/-! ## The invariant makes a priority queue -/

/-- The heap order, read off the array. -/
theorem load_parent_le (hh : Heap s h l) {i : Nat} (hi : 0 < i) (hin : i < h.curSize) :
    ∃ p q, load h.array ((i - 1) / 2) = .ok (some p) ∧ load h.array i = .ok (some q) ∧
      expireOf s p ≤ expireOf s q := by
  obtain ⟨rest, harray⟩ := hh.used
  have hil : i < l.length := by
    rw [← hh.size]
    exact hin
  have hp := List.getElem?_eq_getElem (Nat.lt_trans (Lib.HoleHeap.parent_lt hi) hil)
  have hq := List.getElem?_eq_getElem hil
  have hle := hh.order i hi hil
  rw [Lib.HoleHeap.keys_of_getElem? hp, Lib.HoleHeap.keys_of_getElem? hq] at hle
  refine ⟨_, _, ?_, ?_, hle⟩
  · rw [harray]
    exact load_used _ hp
  · rw [harray]
    exact load_used _ hq

/-- Each timer that was given and not taken is in the array once. -/
theorem Keeps.once (hk : Keeps given h s) : (h.array.take h.curSize).Perm (given.map some) := by
  obtain ⟨l, hheap, hperm⟩ := hk.heap
  rw [hheap.take]
  exact hperm.map some

/-- Without timers there is no first one. -/
theorem Keeps.top_none (hk : Keeps given h s) (hnil : given = []) : h.top = .ok none := by
  obtain ⟨l, hheap, hperm⟩ := hk.heap
  rw [hnil] at hperm
  obtain rfl := hperm.eq_nil
  rw [TimeHeap.top, hheap.empty]
  rfl

/-- The first timer is one with the earliest time. -/
theorem Keeps.top_least (hk : Keeps given h s) (hne : given ≠ []) :
    ∃ x ∈ given, h.top = .ok (some x) ∧ ∀ y ∈ given, expireOf s x ≤ expireOf s y := by
  obtain ⟨l, hheap, hperm⟩ := hk.heap
  cases l with
  | nil => exact absurd hperm.nil_eq.symm hne
  | cons x l =>
    refine ⟨x, hperm.mem_iff.mp List.mem_cons_self, hheap.top, ?_⟩
    intro y hy
    exact hheap.order.head_le (hperm.mem_iff.mpr hy)

/-- Taking the first timer out leaves the others in the array. -/
theorem Keeps.pop_top (hk : Keeps given h s) {x : Ptr} (htop : h.top = .ok (some x)) :
    ∃ h' s', h.popTimer s = .ok (h', s') ∧
      (h'.array.take h'.curSize).Perm ((given.erase x).map some) := by
  obtain ⟨first, h', s', htop', hpop, hk'⟩ := hk.pop
  obtain rfl := result_unique htop' htop
  refine ⟨h', s', hpop, ?_⟩
  rw [← filter_ne_eq_erase hk.nodup]
  exact hk'.once

/-- An addition succeeds. -/
theorem Keeps.add_ok (hk : Keeps given h s) (timer : Option Ptr) :
    ∃ h' s', h.addTimer s timer = .ok (h', s') := by
  cases timer with
  | none => exact ⟨h, s, rfl⟩
  | some p =>
    obtain ⟨l, hheap, -⟩ := hk.heap
    obtain ⟨h', l', hadd, -⟩ := addTimer_spec hheap hk.capacity p
    exact ⟨h', _, hadd⟩

/-- The heap is a priority queue of the timers given and not taken. -/
theorem Keeps.queue (hk : Keeps given h s) : Queue given h s where
  room := by
    obtain ⟨l, hheap, -⟩ := hk.heap
    rw [hheap.size]
    exact hheap.length_le
  nodup := hk.nodup
  once := hk.once
  order := by
    obtain ⟨l, hheap, -⟩ := hk.heap
    intro i hi hin
    exact load_parent_le hheap hi hin
  top_none := hk.top_none
  top_least := hk.top_least
  pop_top := fun _ => hk.pop_top
  add_ok := hk.add_ok
  pop_ok := by
    obtain ⟨_, h', s', -, hpop, -⟩ := hk.pop
    exact ⟨h', s', hpop⟩
  tick_ok := by
    intro cur
    obtain ⟨h', s', htick, -⟩ := hk.tick cur
    exact ⟨h', s', htick⟩

end Steps

/-- The second constructor builds a heap from each array that has room, and each heap of a run
is a priority queue of the timers that were given to it and not yet popped. -/
theorem run_queue :
    (∀ (s : Store) (initArray : List Ptr) (capacity : Nat), initArray.length ≤ capacity →
      ∃ h, TimeHeap.ofArray s (initArray.map some) capacity = .ok (some h)) ∧
    ∀ (given : List Ptr) (h : TimeHeap) (s : Store), Run given h s → Queue given h s := by
  constructor
  · intro s initArray capacity hle
    obtain ⟨h, l, hbuild, -⟩ := ofArray_spec s initArray capacity hle
    exact ⟨h, hbuild⟩
  · intro given h s hrun
    exact (run_keeps hrun).queue

/-- A store whose timers are due in the order of their addresses. -/
def byAddress : Store := ⟨fun p => ⟨p, none, 0⟩, [], []⟩

/-- Three timers in the wrong order and a full array, then a fourth timer, which doubles the
array, and then the removal of the first one. -/
theorem run_queue_grown :
    Queue [4, 3, 2] ⟨[some 2, some 4, some 3, some 4, none, none], 6, 3⟩
      { byAddress with deleted := [1, 2, 3, 1] } := by
  apply run_queue.2
  have hbuild : Run [3, 2, 1] ⟨[some 1, some 2, some 3], 3, 3⟩ byAddress :=
    .ofArray [3, 2, 1] 3 byAddress (by decide) (by decide) (by decide) rfl
  have hadd : Run [4, 3, 2, 1] ⟨[some 1, some 2, some 3, some 4, none, none], 6, 4⟩
      { byAddress with deleted := [1, 2, 3] } :=
    .add (some 4) hbuild (by decide) rfl
  exact .pop (some 1) hadd rfl rfl

end ServerListings.Analysis.TimeHeapOrder
