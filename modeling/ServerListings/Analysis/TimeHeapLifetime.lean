import Mathlib.Data.List.Nodup
import ServerListings.Interface.HeapOperations

/-!
# The lifetime of the timers in the time heap

A program hands timers over to a heap, which has to delete each of them once: when the timer
is popped, when it is due, or at the latest in the destructor. `Life` lists the timers handed
over so far. The heap keeps its promise as long as no timer is added to a full array
(`owned_of_room`): the copy that `resize` makes deletes the timers that it copies. Runs with more
than 2^30 timers are left aside, in which an `int` overflows.
-/

set_option autoImplicit false

namespace ServerListings.Analysis.TimeHeapLifetime

open Lib.CMem ServerListings.Model ServerListings.Interface

/-- The heaps that a program reaches when each timer it hands over is an object of its own
and still alive, and each addition meets `cond`. -/
inductive Life (cond : TimeHeap → Option Ptr → Prop) : List Ptr → TimeHeap → Store → Prop where
  | create (cap : Nat) (s : Store) : Life cond [] (TimeHeap.create cap) s
  | ofArray {h : TimeHeap} (initArray : List Ptr) (capacity : Nat) (s : Store) :
      initArray.Nodup → (∀ p ∈ initArray, p ∉ s.deleted) →
      TimeHeap.ofArray s (initArray.map some) capacity = .ok (some h) → Life cond initArray h s
  | make {handed : List Ptr} {h : TimeHeap} {s : Store} (p : Ptr) (t : HeapTimer) :
      Life cond handed h s → p ∉ handed → p ∉ s.deleted → Life cond handed h (s.make p t)
  | add {handed : List Ptr} {h h' : TimeHeap} {s s' : Store} (timer : Option Ptr) :
      Life cond handed h s → (∀ p, timer = some p → p ∉ handed ∧ p ∉ s.deleted) → cond h timer →
      h.addTimer s timer = .ok (h', s') → Life cond (timer.toList ++ handed) h' s'
  | del {handed : List Ptr} {h : TimeHeap} {s : Store} (timer : Option Ptr) :
      Life cond handed h s → Life cond handed h (delTimer s timer)
  | pop {handed : List Ptr} {h h' : TimeHeap} {s s' : Store} :
      Life cond handed h s → h.popTimer s = .ok (h', s') → Life cond handed h' s'
  | tick {handed : List Ptr} {h h' : TimeHeap} {s s' : Store} (cur : Int) :
      Life cond handed h s → h.tick s cur = .ok (h', s') → Life cond handed h' s'

/-- The timers in the array are alive, and after the destructor each timer that was handed
over has been deleted exactly once. -/
structure Owner (handed : List Ptr) (h : TimeHeap) (s : Store) : Prop where
  alive : ∀ q ∈ h.array.take h.curSize, ∃ p, q = some p ∧ p ∉ s.deleted
  destroyed : ∃ s', h.destroy s = .ok s' ∧ ∀ p ∈ handed, s'.deleted.count p = 1

/-- In all runs whose additions meet `cond`, the heap owns its timers and such additions
delete nothing. -/
def Owned (cond : TimeHeap → Option Ptr → Prop) : Prop :=
  ∀ (handed : List Ptr) (h : TimeHeap) (s : Store), Life cond handed h s →
    Owner handed h s ∧
      ∀ (timer : Option Ptr) (h' : TimeHeap) (s' : Store), cond h timer →
        h.addTimer s timer = .ok (h', s') → s'.deleted = s.deleted

/-- The array has room for the timer that is added. -/
def HasRoom (h : TimeHeap) (timer : Option Ptr) : Prop := timer = none ∨ h.curSize < h.capacity

/-! ## What one operation preserves -/

/-- The heap and the list of deletions together have each timer handed over once. -/
structure Accounts (handed : List Ptr) (l : List Ptr) (s : Store) : Prop where
  once : ∀ p ∈ handed, s.deleted.count p + l.count p = 1
  mem : ∀ p ∈ l, p ∈ handed

/-- The invariant of a run. -/
def Keeps (handed : List Ptr) (h : TimeHeap) (s : Store) : Prop :=
  ∃ l, Heap s h l ∧ Accounts handed l s

section Steps

variable {handed l l' r : List Ptr} {h h' : TimeHeap} {s s' : Store} {p : Ptr}

/-- Timers that leave the heap are deleted. -/
theorem Accounts.remove (ha : Accounts handed l s) (hl : (r ++ l').Perm l)
    (hd : s'.deleted = s.deleted ++ r) : Accounts handed l' s' := by
  constructor
  · intro p hp
    have hcount := hl.count_eq p
    rw [List.count_append] at hcount
    rw [hd, List.count_append, Nat.add_assoc, hcount]
    exact ha.once p hp
  · intro p hp
    apply ha.mem
    apply hl.mem_iff.mp
    exact List.mem_append_right _ hp

/-- A timer that is handed over enters the heap. -/
theorem Accounts.enter (ha : Accounts handed l s) (hl : l'.Perm (p :: l)) (hp : p ∉ handed)
    (halive : p ∉ s.deleted) (hd : s'.deleted = s.deleted) : Accounts (p :: handed) l' s' := by
  constructor
  · intro q hq
    rw [hd, hl.count_eq q]
    by_cases hqp : q = p
    · have hnot : p ∉ l := fun hpl => hp (ha.mem p hpl)
      rw [hqp, List.count_eq_zero_of_not_mem halive, List.count_cons_self,
        List.count_eq_zero_of_not_mem hnot]
    · have hq' : q ∈ handed := (List.mem_cons.mp hq).resolve_left hqp
      rw [List.count_cons_of_ne (Ne.symm hqp)]
      exact ha.once q hq'
  · intro q hq
    rcases List.mem_cons.mp (hl.mem_iff.mp hq) with rfl | hq'
    · exact List.mem_cons_self
    · exact List.mem_cons_of_mem _ (ha.mem q hq')

/-- A timer in the heap is alive. -/
theorem Accounts.alive (ha : Accounts handed l s) (hp : p ∈ l) : p ∉ s.deleted := by
  intro hdel
  have honce := ha.once p (ha.mem p hp)
  have h1 := List.count_pos_iff.mpr hp
  have h2 := List.count_pos_iff.mpr hdel
  omega

/-- Adding to a heap with room deletes nothing. -/
theorem addTimer_deleted (hh : Heap s h l) {timer : Option Ptr} (hroom : HasRoom h timer)
    (hadd : h.addTimer s timer = .ok (h', s')) : s'.deleted = s.deleted := by
  rcases hroom with rfl | hroom
  · obtain ⟨rfl, rfl⟩ := Prod.mk.inj (Except.ok.inj hadd)
    rfl
  · cases timer with
    | none =>
      obtain ⟨rfl, rfl⟩ := Prod.mk.inj (Except.ok.inj hadd)
      rfl
    | some p =>
      obtain ⟨h₁, l₁, hadd₁, -⟩ := addTimer_spec hh (by omega) p
      rw [hadd₁, copied, if_pos hroom, List.append_nil] at hadd
      obtain ⟨rfl, rfl⟩ := Prod.mk.inj (Except.ok.inj hadd)
      rfl

/-- Adding to a full array deletes the timers in it, which stay there. -/
theorem addTimer_full (hh : Heap s h l) (hcap : 1 ≤ h.capacity) (hfull : ¬ HasRoom h (some p))
    (hadd : h.addTimer s (some p) = .ok (h', s')) :
    s'.deleted ≠ s.deleted ∧ ¬ Owner (p :: handed) h' s' := by
  have hsize : ¬ h.curSize < h.capacity := fun hlt => hfull (Or.inr hlt)
  obtain ⟨h₁, l₁, hadd₁, hheap₁, -, hperm⟩ := addTimer_spec hh hcap p
  rw [hadd₁, copied, if_neg hsize] at hadd
  obtain ⟨rfl, rfl⟩ := Prod.mk.inj (Except.ok.inj hadd)
  obtain ⟨x, hx⟩ : ∃ x, x ∈ l := by
    apply List.exists_mem_of_length_pos
    rw [← hh.size]
    omega
  constructor
  · intro heq
    have hnil := List.append_right_eq_self.mp heq
    rw [hnil] at hx
    cases hx
  · intro howner
    have hin : some x ∈ h₁.array.take h₁.curSize := by
      rw [hheap₁.take]
      exact List.mem_map_of_mem (hperm.mem_iff.mpr (List.mem_cons_of_mem _ hx))
    obtain ⟨y, hy, halive⟩ := howner.alive _ hin
    obtain rfl := Option.some.inj hy
    exact halive (List.mem_append_right _ hx)

/-- `add_timer` with room keeps the timers of the caller. -/
theorem Keeps.add (hk : Keeps handed h s) {timer : Option Ptr}
    (hnew : ∀ p, timer = some p → p ∉ handed ∧ p ∉ s.deleted) (hroom : HasRoom h timer)
    (hadd : h.addTimer s timer = .ok (h', s')) : Keeps (timer.toList ++ handed) h' s' := by
  obtain ⟨l, hheap, hacc⟩ := hk
  have hdel := addTimer_deleted hheap hroom hadd
  cases timer with
  | none =>
    obtain ⟨rfl, rfl⟩ := Prod.mk.inj (Except.ok.inj hadd)
    exact ⟨l, hheap, hacc⟩
  | some p =>
    have hlt : h.curSize < h.capacity := hroom.resolve_left (Option.some_ne_none p)
    obtain ⟨hp, halive⟩ := hnew p rfl
    obtain ⟨h₁, l₁, hadd₁, hheap₁, -, hperm⟩ := addTimer_spec hheap (by omega) p
    obtain ⟨rfl, rfl⟩ := results_unique hadd₁ hadd
    exact ⟨l₁, ⟨hheap₁.toHolds, hheap₁.order⟩, hacc.enter hperm hp halive hdel⟩

/-- `pop_timer` keeps the timers of the caller. -/
theorem Keeps.pop (hk : Keeps handed h s) (hpop : h.popTimer s = .ok (h', s')) :
    Keeps handed h' s' := by
  obtain ⟨l, hheap, hacc⟩ := hk
  cases l with
  | nil =>
    rw [TimeHeap.popTimer, hheap.empty] at hpop
    obtain ⟨rfl, rfl⟩ := Prod.mk.inj (Except.ok.inj hpop)
    exact ⟨[], hheap, hacc⟩
  | cons x l =>
    obtain ⟨h₁, l₁, hpop₁, hheap₁, -, hperm⟩ := popTimer_spec hheap
    obtain ⟨rfl, rfl⟩ := results_unique hpop₁ hpop
    exact ⟨l₁, ⟨hheap₁.toHolds, hheap₁.order⟩, hacc.remove (hperm.cons x) rfl⟩

/-- The timers that are due and the other ones are all timers. -/
theorem due_append_later (s : Store) (cur : Int) (l : List Ptr) :
    (l.filter (expireOf s · ≤ cur) ++ l.filter (cur < expireOf s ·)).Perm l := by
  have hlater : l.filter (cur < expireOf s ·) = l.filter fun p => !decide (expireOf s p ≤ cur) := by
    apply List.filter_congr
    intro p _
    rw [← decide_not, decide_eq_decide, not_le]
  rw [hlater]
  exact List.filter_append_perm _ l

/-- `tick` keeps the timers of the caller. -/
theorem Keeps.tick (hk : Keeps handed h s) {cur : Int} (htick : h.tick s cur = .ok (h', s')) :
    Keeps handed h' s' := by
  obtain ⟨l, hheap, hacc⟩ := hk
  have hcap : 1 ≤ h.capacity := by
    -- `tick` reads the first place of the array even when the heap is empty
    by_contra hzero
    have harray : h.array = [] := by
      apply List.eq_nil_of_length_eq_zero
      rw [hheap.room]
      omega
    rw [TimeHeap.tick, harray] at htick
    cases htick
  obtain ⟨h₁, l₁, r, s₁, htick₁, hheap₁, -, hperm, hr, htimers, hdel, -⟩ := tick_spec cur hheap hcap
  obtain ⟨rfl, rfl⟩ := results_unique htick₁ htick
  have hall := (hr.append hperm).trans (due_append_later s cur l)
  exact ⟨l₁, ⟨hheap₁.toHolds, hheap₁.order.congr htimers⟩, hacc.remove hall hdel⟩

/-- Operations that delete nothing and set no expiry time of a timer in the heap. -/
theorem Keeps.of_expire (hk : Keeps handed h s) (hd : s'.deleted = s.deleted)
    (heq : ∀ p ∈ handed, expireOf s' p = expireOf s p) : Keeps handed h s' := by
  obtain ⟨l, hheap, hacc⟩ := hk
  have hacc' : Accounts handed l s' := hacc.remove (r := []) (.refl _) (by rw [hd, List.append_nil])
  refine ⟨l, ⟨hheap.toHolds, ?_⟩, hacc'⟩
  apply hheap.order.of_expire
  intro p hp
  exact heq p (hacc.mem p hp)

/-- A heap built from the timers that the caller handed over keeps them. -/
theorem keeps_start (hheap : Heap s h l) (hl : l.Perm handed) (hnodup : handed.Nodup)
    (halive : ∀ p ∈ handed, p ∉ s.deleted) : Keeps handed h s := by
  refine ⟨l, hheap, ?_, fun p hp => hl.mem_iff.mp hp⟩
  intro p hp
  rw [List.count_eq_zero_of_not_mem (halive p hp), hl.count_eq p,
    List.count_eq_one_of_mem hnodup hp]

/-- The invariant holds in every state of a run whose additions have room; the induction is on
the run. -/
theorem life_keeps (hlife : Life HasRoom handed h s) : Keeps handed h s := by
  induction hlife with
  | create cap s =>
    apply keeps_start ⟨create_holds cap, heapOrdered_nil s⟩ (.refl _) List.nodup_nil
    intro p hp
    cases hp
  | @ofArray h initArray capacity s hnodup halive hok =>
    by_cases hle : initArray.length ≤ capacity
    · obtain ⟨h', l, hbuild, hheap, -, hperm⟩ := ofArray_spec s initArray capacity hle
      obtain rfl := Option.some.inj (result_unique hbuild hok)
      exact keeps_start hheap hperm hnodup halive
    · rw [TimeHeap.ofArray, if_pos (by rw [List.length_map]; omega)] at hok
      cases hok
  | make p t _ hp _ ih =>
    apply ih.of_expire
    · rfl
    intro q hq
    apply expireOf_make_ne
    rintro rfl
    exact hp hq
  | add timer _ hnew hroom hadd ih => exact ih.add hnew hroom hadd
  | del timer _ ih =>
    apply ih.of_expire
    · cases timer <;> rfl
    · intro p _
      exact expireOf_delTimer _ timer p
  | pop _ hpop ih => exact ih.pop hpop
  | tick cur _ htick ih => exact ih.tick htick

/-- Where the timers are kept the heap owns them. -/
theorem Keeps.owner (hk : Keeps handed h s) : Owner handed h s := by
  obtain ⟨l, hheap, hacc⟩ := hk
  constructor
  · intro q hq
    rw [hheap.take] at hq
    obtain ⟨p, hp, rfl⟩ := List.mem_map.mp hq
    exact ⟨p, rfl, hacc.alive hp⟩
  · refine ⟨_, destroy_spec hheap.toHolds s, ?_⟩
    intro p hp
    rw [List.count_append]
    exact hacc.once p hp

/-- The heap owns its timers in every run in which a timer is only added when the array has
room, and such an addition deletes nothing. An addition to a full array ends this: it deletes
timers, and the array holds them. -/
theorem owned_of_room (hlife : Life HasRoom handed h s) :
    Owner handed h s ∧
      (∀ (timer : Option Ptr) (h' : TimeHeap) (s' : Store), HasRoom h timer →
        h.addTimer s timer = .ok (h', s') → s'.deleted = s.deleted) ∧
      ∀ (p : Ptr) (h' : TimeHeap) (s' : Store), 1 ≤ h.capacity → ¬ HasRoom h (some p) →
        h.addTimer s (some p) = .ok (h', s') →
        s'.deleted ≠ s.deleted ∧ ¬ Owner (p :: handed) h' s' := by
  have hk := life_keeps hlife
  refine ⟨hk.owner, ?_⟩
  obtain ⟨l, hheap, -⟩ := hk
  constructor
  · intro timer h' s' hroom hadd
    exact addTimer_deleted hheap hroom hadd
  · intro p h' s' hcap hfull hadd
    exact addTimer_full hheap hcap hfull hadd

end Steps

/-- A run in which the array has room for both timers, and the first one is popped. -/
theorem owned_of_room_two :
    Owner [2, 1] ⟨[some 2, some 2], 2, 1⟩ ⟨fun p => ⟨p, none, 0⟩, [1], []⟩ := by
  have hone : Life HasRoom [1] ⟨[some 1, none], 2, 1⟩ ⟨fun p => ⟨p, none, 0⟩, [], []⟩ :=
    .add (some 1) (.create 2 _) (by decide) (Or.inr (by decide)) rfl
  have htwo : Life HasRoom [2, 1] ⟨[some 1, some 2], 2, 2⟩ ⟨fun p => ⟨p, none, 0⟩, [], []⟩ :=
    .add (some 2) hone (by decide) (Or.inr (by decide)) rfl
  exact (owned_of_room (htwo.pop rfl)).1

/-- Two timers in an array that starts with one place: the first timer is deleted by the
second addition, and once more by the destructor. -/
theorem owned_not_always : ¬ Owned fun _ _ => True := by
  intro howned
  let s : Store := ⟨fun p => ⟨p, none, 0⟩, [], []⟩
  have hone : Life (fun _ _ => True) [1] ⟨[some 1], 1, 1⟩ s :=
    .add (some 1) (.create 1 s) (by decide) trivial rfl
  have htwo : Life (fun _ _ => True) [2, 1] ⟨[some 1, some 2], 2, 2⟩ { s with deleted := [1] } :=
    .add (some 2) hone (by decide) trivial rfl
  obtain ⟨p, hp, halive⟩ := (howned _ _ _ htwo).1.alive (some 1) (by decide)
  obtain rfl := Option.some.inj hp
  exact halive (by decide)

end ServerListings.Analysis.TimeHeapLifetime
