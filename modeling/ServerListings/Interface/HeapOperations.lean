import ServerListings.Interface.HeapArray

/-!
# The operations of the time heap

`Holds h l` says that `l` is the list of the timers in `h`, in the order of the array, and
`Heap s h l` that they are in heap order too. For each operation there is one rule: it has a
result, which timers the result holds, and what it does to the store.
-/

set_option autoImplicit false

namespace ServerListings.Interface

open Lib.CMem Lib.HoleHeap ServerListings.Model

/-- The used part of the array holds the timers `l`. -/
structure Holds (h : TimeHeap) (l : List Ptr) : Prop where
  used : ∃ rest, h.array = l.map some ++ rest
  size : h.curSize = l.length
  room : h.array.length = h.capacity

/-- The heap order of a list of timers. -/
def HeapOrdered (s : Store) (l : List Ptr) : Prop := Ordered (keys (expireOf s) l) l.length

/-- The used part of the array holds the timers `l` in heap order. -/
structure Heap (s : Store) (h : TimeHeap) (l : List Ptr) : Prop extends Holds h l where
  order : HeapOrdered s l

section Operations

variable {s : Store} {h : TimeHeap} {l : List Ptr} {x : Ptr}

/-- There are no more timers than places. -/
theorem Holds.length_le (hh : Holds h l) : l.length ≤ h.capacity := by
  obtain ⟨rest, harray⟩ := hh.used
  rw [← hh.room, harray, List.length_append, List.length_map]
  exact Nat.le_add_right _ _

/-- The heap order reads only the expiry times of the timers in the heap. -/
theorem HeapOrdered.of_expire {s' : Store} (ho : HeapOrdered s l)
    (heq : ∀ p ∈ l, expireOf s' p = expireOf s p) : HeapOrdered s' l := by
  have hkeys : ∀ i, keys (expireOf s') l i = keys (expireOf s) l i := by
    intro i
    unfold keys
    cases hi : l[i]? with
    | none => rfl
    | some p => exact congrArg (fun e => (some e).getD default) (heq p (List.mem_of_getElem? hi))
  intro i hi hin
  rw [hkeys, hkeys]
  exact ho i hi hin

/-- The order depends on the timers' objects only. -/
theorem HeapOrdered.congr {s' : Store} (ho : HeapOrdered s l) (ht : s'.timers = s.timers) :
    HeapOrdered s' l := by
  apply ho.of_expire
  intro p _
  rw [expireOf, expireOf, ht]

/-- The first timer of a heap has a least expiry time. -/
theorem HeapOrdered.head_le (ho : HeapOrdered s (x :: l)) {y : Ptr} (hy : y ∈ x :: l) :
    expireOf s x ≤ expireOf s y := by
  obtain ⟨i, hi⟩ := List.mem_iff_getElem?.mp hy
  have hle := ho.root_le i (List.getElem?_eq_some_iff.mp hi).1
  rwa [keys_of_getElem? hi, keys_of_getElem? (x := x) rfl] at hle

/-- The used part of the array are the timers. -/
theorem Holds.take (hh : Holds h l) : h.array.take h.curSize = l.map some := by
  obtain ⟨rest, harray⟩ := hh.used
  rw [harray, hh.size]
  exact List.take_left' (List.length_map ..)

/-- A heap without timers is empty. -/
theorem Holds.empty (hh : Holds h []) : h.empty = true := by
  rw [TimeHeap.empty, hh.size]
  rfl

/-- A heap with a timer is not empty. -/
theorem Holds.not_empty (hh : Holds h (x :: l)) : h.empty = false := by
  rw [TimeHeap.empty, hh.size]
  rfl

/-- The first timer is the top. -/
theorem Holds.top (hh : Holds h (x :: l)) : h.top = .ok (some x) := by
  obtain ⟨rest, harray⟩ := hh.used
  rw [TimeHeap.top, hh.not_empty, harray]
  rfl

/-- A timer that is cancelled keeps its time. -/
@[simp] theorem expireOf_delTimer (s : Store) (timer : Option Ptr) (p : Ptr) :
    expireOf (delTimer s timer) p = expireOf s p := by
  cases timer with
  | none => rfl
  | some q =>
    by_cases hq : p = q
    · rw [hq]
      simp only [expireOf, delTimer, if_true]
    · simp only [expireOf, delTimer, if_neg hq]

/-- A new object leaves the times of the others alone. -/
theorem expireOf_make_ne (s : Store) (t : HeapTimer) {p q : Ptr} (hne : q ≠ p) :
    expireOf (s.make p t) q = expireOf s q := by
  simp only [expireOf, Store.make, if_neg hne]

/-- A new heap has no timers. -/
theorem create_holds (cap : Nat) : Holds (TimeHeap.create cap) [] where
  used := ⟨_, rfl⟩
  size := rfl
  room := List.length_replicate

/-- No timers are in order. -/
theorem heapOrdered_nil (s : Store) : HeapOrdered s [] := by
  intro i _ hi
  exact absurd hi (Nat.not_lt_zero i)

/-! ## Moving down and building -/

/-- `percolate_down` on an array with a hole in a set of positions that has the children of
its members. -/
theorem percolateDown_on {D : Nat → Prop} (hclosed : ∀ i, 0 < i → D (parent i) → D i)
    {rest : List (Option Ptr)} {hole : Nat} (harray : h.array = l.map some ++ rest)
    (hsize : h.curSize = l.length) (hlt : hole < l.length) (hhole : D hole)
    (hd : DownHoleOn D (keys (expireOf s) l) l.length hole) :
    ∃ l', h.percolateDown s hole = .ok { h with array := l'.map some ++ rest } ∧ l'.Perm l ∧
      OrderedOn D (keys (expireOf s) l') l'.length ∧ ∀ i, ¬ D i → l'[i]? = l[i]? := by
  have hset : l.set hole l[hole] = l := List.set_getElem_self hlt
  have hf : Fills h.array hole l[hole] l rest := by
    rw [harray]
    exact fills_used hlt
  have hd' : DownHoleOn D (filled s l hole l[hole]) l.length hole := by
    rwa [filled, hset]
  obtain ⟨array', l', hole', hloop, hf', hlt', hperm, hord, hframe⟩ :=
    percolateLoop_spec hclosed (h.curSize + 1) h.array l hole hf hlt hhole (by rw [hsize]; omega) hd'
  rw [hset] at hperm hframe
  refine ⟨l'.set hole' l[hole], ?_, hperm, by rwa [List.length_set], hframe⟩
  have hload := load_used rest (List.getElem?_eq_getElem hlt)
  rw [← harray] at hload
  rw [← hsize] at hloop
  simp only [TimeHeap.percolateDown, hload, ok_bind, hloop, hf'.finish hlt']
  rfl

/-- `percolate_down` orders the positions whose parents are from `hole` on, when the ones
behind `hole` are. -/
theorem percolateDown_spec {hole : Nat} (hh : Holds h l) (hlt : hole < l.length)
    (ho : OrderedFrom (keys (expireOf s) l) l.length (hole + 1)) :
    ∃ h' l', h.percolateDown s hole = .ok h' ∧ Holds h' l' ∧ h'.capacity = h.capacity ∧
      l'.Perm l ∧ OrderedFrom (keys (expireOf s) l') l'.length hole := by
  obtain ⟨rest, harray⟩ := hh.used
  have hclosed : ∀ i, 0 < i → hole ≤ parent i → hole ≤ i :=
    fun i hi hle => Nat.le_trans hle (Nat.le_of_lt (parent_lt hi))
  obtain ⟨l', hdown, hperm, hord, _⟩ :=
    percolateDown_on hclosed harray hh.size hlt (Nat.le_refl _) (downHole_start ho).downHoleOn
  refine ⟨_, l', hdown, ⟨⟨rest, rfl⟩, ?_, ?_⟩, rfl, hperm, hord⟩
  · rw [hperm.length_eq]
    exact hh.size
  · show (l'.map some ++ rest).length = h.capacity
    rw [← hh.room, harray, List.length_append, List.length_append, List.length_map,
      List.length_map, hperm.length_eq]

/-- The loop of the second constructor. -/
theorem buildLoop_spec (n : Nat) : ∀ (h : TimeHeap) (l : List Ptr), Holds h l → n ≤ l.length →
    OrderedFrom (keys (expireOf s) l) l.length n →
    ∃ h' l', buildLoop s n h = .ok h' ∧ Heap s h' l' ∧ h'.capacity = h.capacity ∧ l'.Perm l := by
  induction n with
  | zero =>
    intro h l hh _ ho
    exact ⟨h, l, rfl, ⟨hh, ordered_of_orderedFrom ho⟩, rfl, .refl _⟩
  | succ n ih =>
    intro h l hh hn ho
    obtain ⟨h₁, l₁, hdown, hh₁, hcap₁, hperm₁, ho₁⟩ := percolateDown_spec hh hn ho
    obtain ⟨h₂, l₂, hbuild, hh₂, hcap₂, hperm₂⟩ :=
      ih h₁ l₁ hh₁ (by rw [hperm₁.length_eq]; omega) ho₁
    refine ⟨h₂, l₂, ?_, hh₂, hcap₂.trans hcap₁, hperm₂.trans hperm₁⟩
    rw [buildLoop, hdown, ok_bind, hbuild]

/-- The second constructor, on an array of timers that has room. -/
theorem ofArray_spec (s : Store) (l : List Ptr) (capacity : Nat) (hcap : l.length ≤ capacity) :
    ∃ h l', TimeHeap.ofArray s (l.map some) capacity = .ok (some h) ∧ Heap s h l' ∧
      h.capacity = capacity ∧ l'.Perm l := by
  have hh : Holds ⟨l.map some ++ List.replicate (capacity - l.length) none, capacity, l.length⟩ l := by
    refine ⟨⟨_, rfl⟩, rfl, ?_⟩
    rw [List.length_append, List.length_map, List.length_replicate]
    exact Nat.add_sub_cancel' hcap
  unfold TimeHeap.ofArray
  rw [if_neg (by rw [List.length_map]; omega)]
  simp only [List.length_map]
  by_cases hl : l.length = 0
  · rw [if_neg (not_not.mpr hl)]
    obtain rfl := List.eq_nil_of_length_eq_zero hl
    exact ⟨_, [], rfl, ⟨hh, heapOrdered_nil s⟩, rfl, .refl _⟩
  · rw [if_pos hl]
    obtain ⟨h', l', hbuild, hheap, hcap', hperm⟩ :=
      buildLoop_spec (s := s) ((l.length - 1) / 2 + 1) _ l hh (by omega)
        (orderedFrom_of_half (by omega))
    refine ⟨h', l', ?_, hheap, hcap', hperm⟩
    rw [hbuild, ok_bind]
    rfl

/-! ## Adding -/

/-- The copying loop of `resize` copies the rest of the timers and deletes them. -/
theorem resizeLoop_spec (rest : List (Option Ptr)) (k : Nat) (l : List Ptr) :
    ∀ (done : List Ptr) (s : Store),
      resizeLoop ((done ++ l).map some ++ rest) l.length done.length
          (done.map some ++ List.replicate (l.length + k) none) s =
        .ok ((done ++ l).map some ++ List.replicate k none, { s with deleted := s.deleted ++ l }) := by
  induction l with
  | nil =>
    intro done s
    simp only [List.length_nil, Nat.zero_add, List.append_nil]
    rfl
  | cons p l ih =>
    intro done s
    have hload : load ((done ++ p :: l).map some ++ rest) done.length = .ok (some p) :=
      load_used _ (by rw [List.getElem?_append_right (Nat.le_refl _), Nat.sub_self]; rfl)
    have hstore : store (done.map some ++ List.replicate ((p :: l).length + k) none) done.length
        (some p) = .ok ((done ++ [p]).map some ++ List.replicate (l.length + k) none) := by
      have hrep : List.replicate ((p :: l).length + k) (none : Option Ptr) =
          none :: List.replicate (l.length + k) none := by
        rw [List.length_cons, Nat.add_right_comm, List.replicate_succ]
      have hsc := store_append_cons (done.map some) (List.replicate (l.length + k) (none : Option Ptr))
        none (some p)
      rw [List.length_map] at hsc
      rw [hrep, hsc, List.map_append, List.append_assoc]
      rfl
    have hih := ih (done ++ [p]) (s.delete (some p))
    rw [List.length_append, List.append_assoc] at hih
    rw [List.length_cons, resizeLoop, hload, ok_bind, ← List.length_cons, hstore, ok_bind]
    refine hih.trans ?_
    simp only [Store.delete, List.append_assoc, List.singleton_append]

/-- The copy of the array that `resize` makes has room, but its timers are deleted. -/
theorem resize_spec (hh : Holds h l) (s : Store) :
    ∃ h', h.resize s = .ok (h', { s with deleted := s.deleted ++ l }) ∧ Holds h' l ∧
      h'.capacity = 2 * h.capacity := by
  obtain ⟨rest, harray⟩ := hh.used
  have hle := hh.length_le
  have hloop := resizeLoop_spec rest (2 * h.capacity - l.length) l [] s
  rw [show l.length + (2 * h.capacity - l.length) = 2 * h.capacity by omega] at hloop
  refine ⟨⟨l.map some ++ List.replicate (2 * h.capacity - l.length) none, 2 * h.capacity, h.curSize⟩,
    ?_, ⟨⟨_, rfl⟩, hh.size, ?_⟩, rfl⟩
  · have hcopy : resizeLoop h.array h.curSize 0 (List.replicate (2 * h.capacity) none) s =
        .ok (l.map some ++ List.replicate (2 * h.capacity - l.length) none,
          { s with deleted := s.deleted ++ l }) := by
      rw [harray, hh.size]
      exact hloop
    rw [TimeHeap.resize, hcopy, ok_bind]
    rfl
  · rw [List.length_append, List.length_map, List.length_replicate]
    exact Nat.add_sub_cancel' (by omega)

/-- The timers that an addition to `h` deletes. -/
def copied (h : TimeHeap) (l : List Ptr) : List Ptr := if h.curSize < h.capacity then [] else l

/-- `resize` is called when the array is full, and the heap keeps its timers. -/
theorem makeRoom_spec (hh : Holds h l) (hcap : 1 ≤ h.capacity) (s : Store) :
    ∃ h', h.makeRoom s = .ok (h', { s with deleted := s.deleted ++ copied h l }) ∧ Holds h' l ∧
      l.length < h'.capacity := by
  unfold TimeHeap.makeRoom copied
  by_cases hroom : h.curSize < h.capacity
  · refine ⟨h, ?_, hh, by rw [← hh.size]; exact hroom⟩
    rw [if_neg (by omega), if_pos hroom, List.append_nil]
    rfl
  · obtain ⟨h', hresize, hh', hcap'⟩ := resize_spec hh s
    have hle := hh.length_le
    refine ⟨h', ?_, hh', by omega⟩
    rw [if_pos (by omega), if_neg hroom, hresize]

/-- `add_timer` adds the timer to those in the heap. -/
theorem addTimer_spec (hh : Heap s h l) (hcap : 1 ≤ h.capacity) (p : Ptr) :
    ∃ h' l', h.addTimer s (some p) = .ok (h', { s with deleted := s.deleted ++ copied h l }) ∧
      Heap s h' l' ∧ 1 ≤ h'.capacity ∧ l'.Perm (p :: l) := by
  obtain ⟨h₁, hroom, hh₁, hlt⟩ := makeRoom_spec hh.toHolds hcap s
  obtain ⟨rest, harray⟩ := hh₁.used
  have hlen : h₁.array.length = l.length + rest.length := by
    rw [harray, List.length_append, List.length_map]
  obtain ⟨q, rest, rfl⟩ : ∃ q rest', rest = q :: rest' := by
    cases rest with
    | nil =>
      have hfull := hh₁.room
      rw [hlen, List.length_nil] at hfull
      omega
    | cons q rest => exact ⟨q, rest, rfl⟩
  have hset : (l ++ [p]).set l.length p = l ++ [p] := by
    rw [List.set_append_right _ _ (Nat.le_refl _), Nat.sub_self]
    rfl
  -- the new place holds no timer yet, and it is the hole
  have hf : Fills h₁.array l.length p (l ++ [p]) rest := by
    rw [Fills, hset, harray, List.set_append_right _ _ (by rw [List.length_map]), List.length_map,
      Nat.sub_self, List.map_append, List.append_assoc]
    rfl
  have hup : UpHole (filled s (l ++ [p]) l.length p) (l ++ [p]).length l.length := by
    rw [List.length_append]
    apply upHole_push hh.order
    intro i hi
    rw [filled, hset, keys, keys, List.getElem?_append_left hi]
  have hlt' : l.length < (l ++ [p]).length := by
    rw [List.length_append]
    exact Nat.lt_succ_self _
  obtain ⟨array', l', hole', hloop, hf', hhole, hperm, hord⟩ :=
    addLoop_spec (s := { s with deleted := s.deleted ++ copied h l }) (l.length + 1) h₁.array
      (l ++ [p]) l.length hf hlt' (Nat.lt_succ_self _) hup
  rw [hset] at hperm
  have hlen' : (l'.set hole' p).length = l.length + 1 := by
    rw [hperm.length_eq, List.length_append]
    rfl
  refine ⟨⟨(l'.set hole' p).map some ++ rest, h₁.capacity, h₁.curSize + 1⟩, l'.set hole' p, ?_,
    ⟨⟨⟨rest, rfl⟩, ?_, ?_⟩, ?_⟩, Nat.lt_of_le_of_lt (Nat.zero_le _) hlt, ?_⟩
  · rw [← hh₁.size] at hloop
    simp only [TimeHeap.addTimer, hroom, ok_bind, hloop, hf'.finish hhole]
    rfl
  · rw [hlen', ← hh₁.size]
  · rw [← hh₁.room, hlen, List.length_append, List.length_map, hlen', List.length_cons]
    omega
  · rwa [HeapOrdered, List.length_set]
  · exact hperm.trans (List.perm_append_comm)

/-! ## Removing the first timer -/

/-- In an empty heap there is nothing to sift. -/
theorem percolateDown_empty (s : Store) {p : Option Ptr} {rest : List (Option Ptr)}
    (harray : h.array = p :: rest) (hsize : h.curSize = 0) : h.percolateDown s 0 = .ok h := by
  have hload : load h.array 0 = .ok p := by
    rw [harray]
    rfl
  have hloop : percolateLoop s h.curSize p (h.curSize + 1) h.array 0 = .ok (h.array, 0) := by
    rw [hsize]
    rfl
  have hstore : store h.array 0 p = .ok h.array := by
    rw [harray]
    rfl
  simp only [TimeHeap.percolateDown, hload, ok_bind, hloop, hstore]
  rfl

/-- `pop_timer` removes the first timer and deletes it. -/
theorem popTimer_spec (hh : Heap s h (x :: l)) :
    ∃ h' l', h.popTimer s = .ok (h', { s with deleted := s.deleted ++ [x] }) ∧ Heap s h' l' ∧
      h'.capacity = h.capacity ∧ l'.Perm l := by
  obtain ⟨rest, harray⟩ := hh.used
  have hsize : h.curSize = l.length + 1 := hh.size
  have hfirst : load h.array 0 = .ok (some x) := by
    rw [harray]
    rfl
  rcases List.eq_nil_or_concat l with rfl | ⟨t, y, rfl⟩
  · -- the last element is stored over itself
    have hstore : store h.array 0 (some x) = .ok h.array := by
      rw [harray]
      rfl
    have hdown : TimeHeap.percolateDown { h with curSize := h.curSize - 1 }
        { s with deleted := s.deleted ++ [x] } 0 = .ok { h with curSize := h.curSize - 1 } :=
      percolateDown_empty _ harray (by rw [hsize]; rfl)
    have hlast : load h.array (h.curSize - 1) = .ok (some x) := by
      rw [hsize]
      exact hfirst
    refine ⟨{ h with curSize := h.curSize - 1 }, [], ?_, ⟨⟨⟨h.array, rfl⟩, ?_, hh.room⟩,
      heapOrdered_nil s⟩, rfl, .refl _⟩
    · simp only [TimeHeap.popTimer, hh.not_empty, hfirst, hlast, hstore, ok_bind, Store.delete,
        Option.isSome_some, if_true, Bool.false_eq_true, if_false, hdown]
      rfl
    · rw [hsize]
      rfl
  · rw [List.concat_eq_append] at *
    have hlen : (x :: (t ++ [y])).length = t.length + 2 := by
      rw [List.length_cons, List.length_append]
      rfl
    have hlast : load h.array (h.curSize - 1) = .ok (some y) := by
      rw [harray, hh.size, hlen]
      apply load_used
      rw [show t.length + 2 - 1 = t.length + 1 by omega, List.getElem?_cons_succ,
        List.getElem?_append_right (Nat.le_refl _), Nat.sub_self]
      rfl
    have hstore : store h.array 0 (some y) = .ok ((y :: t).map some ++ some y :: rest) := by
      rw [harray, List.map_cons, List.map_append, List.cons_append, List.append_assoc]
      rfl
    have hh₁ : Holds ⟨(y :: t).map some ++ some y :: rest, h.capacity, h.curSize - 1⟩ (y :: t) := by
      refine ⟨⟨_, rfl⟩, ?_, ?_⟩
      · rw [hh.size, hlen]
        rfl
      · rw [← hh.room, harray]
        simp only [List.length_append, List.length_map, List.length_cons, List.length_nil]
        omega
    have ho₁ : OrderedFrom (keys (expireOf s) (y :: t)) (y :: t).length 1 := by
      apply hh.order.replace_root (by rw [hlen, List.length_cons]; omega)
      intro i hi hin
      rw [List.length_cons] at hin
      obtain ⟨j, rfl⟩ := Nat.exists_eq_succ_of_ne_zero (by omega : i ≠ 0)
      rw [keys, keys, List.getElem?_cons_succ, List.getElem?_cons_succ,
        List.getElem?_append_left (by omega)]
    obtain ⟨h', l', hdown, hh', hcap, hperm, ho⟩ :=
      percolateDown_spec (s := { s with deleted := s.deleted ++ [x] }) hh₁ (by simp) ho₁
    refine ⟨h', l', ?_, ⟨hh', ordered_of_orderedFrom ho⟩, hcap,
      hperm.trans (List.perm_append_singleton y t).symm⟩
    simp only [TimeHeap.popTimer, hh.not_empty, hfirst, hlast, hstore, ok_bind, Store.delete,
      Option.isSome_some, if_true, Bool.false_eq_true, if_false, hdown]
    rfl

/-! ## The heartbeat and the destructor -/

/-- A callback leaves the objects alone. -/
@[simp] theorem callBack_timers (s : Store) (t : HeapTimer) : (s.callBack t).timers = s.timers := by
  cases hf : t.cbFunc <;> simp only [Store.callBack, hf]

/-- A callback deletes nothing. -/
@[simp] theorem callBack_deleted (s : Store) (t : HeapTimer) : (s.callBack t).deleted = s.deleted := by
  cases hf : t.cbFunc <;> simp only [Store.callBack, hf]

/-- The call that a timer asks for, if it has a callback. -/
def callOf (t : HeapTimer) : Option (Nat × Nat) := t.cbFunc.map fun f => (f, t.userData)

/-- A callback is seen in the log of calls. -/
theorem callBack_calls (s : Store) (t : HeapTimer) :
    (s.callBack t).calls = s.calls ++ (callOf t).toList := by
  cases hf : t.cbFunc <;> simp [Store.callBack, callOf, hf]

/-- The first place of the array of a heap with room for a timer. -/
theorem Holds.load_first (hh : Holds h l) (hcap : 1 ≤ h.capacity) :
    ∃ p, load h.array 0 = .ok p ∧ ∀ x, l.head? = some x → p = some x := by
  have hlt : 0 < h.array.length := by
    rw [hh.room]
    exact hcap
  refine ⟨h.array[0], load_of_lt hlt, ?_⟩
  intro x hx
  obtain ⟨rest, harray⟩ := hh.used
  have hload := load_used rest (List.head?_eq_getElem? ▸ hx)
  rw [← harray, load_of_lt hlt] at hload
  exact Except.ok.inj hload

/-- The loop of `tick` pops the timers of `r` one by one. They are the ones that are due, so
those that stay are the others. -/
theorem tickLoop_spec (cur : Int) (fuel : Nat) :
    ∀ (tmp : Option Ptr) (h : TimeHeap) (l : List Ptr) (s : Store), Heap s h l → 1 ≤ h.capacity →
      l.length < fuel → (∀ x, l.head? = some x → tmp = some x) →
      ∃ h' l' r s', tickLoop cur fuel tmp h s = .ok (h', s') ∧ Heap s h' l' ∧
        h'.capacity = h.capacity ∧ l'.Perm (l.filter (cur < expireOf s ·)) ∧
        r.Perm (l.filter (expireOf s · ≤ cur)) ∧ s'.timers = s.timers ∧
        s'.deleted = s.deleted ++ r ∧ s'.calls = s.calls ++ r.filterMap (callOf <| s.timers ·) := by
  induction fuel with
  | zero =>
    intro _ _ _ _ _ _ hfuel
    exact absurd hfuel (Nat.not_lt_zero _)
  | succ fuel ih =>
    intro tmp h l s hh hcap hfuel htmp
    unfold tickLoop
    cases l with
    | nil =>
      rw [if_pos hh.empty]
      exact ⟨h, [], [], s, rfl, hh, rfl, .refl _, .refl _, rfl, (List.append_nil _).symm,
        (List.append_nil _).symm⟩
    | cons x l =>
      obtain rfl := htmp x rfl
      simp only [hh.not_empty, Bool.false_eq_true, if_false, Option.isNone_some, deref_some, ok_bind]
      by_cases hlater : (s.timers x).expire > cur
      · -- the first timer is the least, so none is due
        have hkeep : ∀ y ∈ x :: l, cur < expireOf s y :=
          fun y hy => lt_of_lt_of_le hlater (hh.order.head_le hy)
        rw [if_pos hlater]
        refine ⟨h, x :: l, [], s, rfl, hh, rfl, ?_, ?_, rfl, (List.append_nil _).symm,
          (List.append_nil _).symm⟩
        · rw [List.filter_eq_self.mpr fun y hy => decide_eq_true (hkeep y hy)]
        · rw [List.filter_eq_nil_iff.mpr fun y hy => by
            rw [decide_eq_true_eq]
            exact not_le.mpr (hkeep y hy)]
      · have hdue : expireOf s x ≤ cur := not_lt.mp hlater
        obtain ⟨p, hfirst, hp⟩ := hh.load_first hcap
        obtain rfl := hp x rfl
        have hh₁ : Heap (s.callBack (s.timers x)) h (x :: l) :=
          ⟨hh.toHolds, hh.order.congr (callBack_timers _ _)⟩
        obtain ⟨h₂, l₂, hpop, hh₂, hcap₂, hperm₂⟩ := popTimer_spec hh₁
        rw [← hcap₂] at hcap
        obtain ⟨p, hload, hp⟩ := hh₂.load_first hcap
        have hfuel₂ : l₂.length < fuel := by
          rw [hperm₂.length_eq]
          exact Nat.lt_of_succ_lt_succ hfuel
        obtain ⟨h', l', r, s', hloop, hh', hcap', hperm, hr, htimers, hdel, hcalls⟩ :=
          ih p h₂ l₂ { s.callBack (s.timers x) with deleted := (s.callBack (s.timers x)).deleted ++ [x] }
            ⟨hh₂.toHolds, hh₂.order⟩ hcap hfuel₂ hp
        rw [if_neg hlater]
        simp only [hfirst, deref_some, ok_bind, hpop, hload]
        have hkey : expireOf (s.callBack (s.timers x)) = expireOf s := by
          funext q
          rw [expireOf, expireOf, callBack_timers]
        refine ⟨h', l', x :: r, s', hloop, ⟨hh'.toHolds, hh'.order.congr (callBack_timers _ _).symm⟩,
          hcap'.trans hcap₂, ?_, ?_, htimers.trans (callBack_timers _ _), ?_, ?_⟩
        · rw [List.filter_cons_of_neg (by rw [decide_eq_true_eq]; exact not_lt.mpr hdue), ← hkey]
          exact hperm.trans (hperm₂.filter _)
        · rw [List.filter_cons_of_pos (by rw [decide_eq_true_eq]; exact hdue), ← hkey]
          exact (hr.trans (hperm₂.filter _)).cons x
        · rw [hdel, callBack_deleted, List.append_assoc]
          rfl
        · rw [hcalls]
          simp only [callBack_timers, callBack_calls, List.append_assoc, List.filterMap_cons]
          cases callOf (s.timers x) <;> rfl

/-- `tick` removes the timers that are due, deletes them and makes their calls. -/
theorem tick_spec (cur : Int) (hh : Heap s h l) (hcap : 1 ≤ h.capacity) :
    ∃ h' l' r s', h.tick s cur = .ok (h', s') ∧ Heap s h' l' ∧ h'.capacity = h.capacity ∧
      l'.Perm (l.filter (cur < expireOf s ·)) ∧ r.Perm (l.filter (expireOf s · ≤ cur)) ∧
      s'.timers = s.timers ∧ s'.deleted = s.deleted ++ r ∧
      s'.calls = s.calls ++ r.filterMap (callOf <| s.timers ·) := by
  obtain ⟨p, hload, hp⟩ := hh.load_first hcap
  have hfuel : l.length < h.curSize + 1 := by
    rw [hh.size]
    exact Nat.lt_succ_self _
  rw [TimeHeap.tick, hload, ok_bind]
  exact tickLoop_spec cur (h.curSize + 1) p h l s hh hcap hfuel hp

/-- The destructor deletes the timers one after the other. -/
theorem destroyLoop_spec (rest : List (Option Ptr)) (l : List Ptr) :
    ∀ (done : List Ptr) (s : Store),
      destroyLoop ((done ++ l).map some ++ rest) l.length done.length s =
        .ok { s with deleted := s.deleted ++ l } := by
  induction l with
  | nil =>
    intro done s
    simp only [List.append_nil]
    rfl
  | cons p l ih =>
    intro done s
    have hload : load ((done ++ p :: l).map some ++ rest) done.length = .ok (some p) :=
      load_used _ (by rw [List.getElem?_append_right (Nat.le_refl _), Nat.sub_self]; rfl)
    have hih := ih (done ++ [p]) (s.delete (some p))
    rw [List.length_append, List.append_assoc] at hih
    rw [List.length_cons, destroyLoop, hload, ok_bind]
    refine hih.trans ?_
    simp only [Store.delete, List.append_assoc, List.singleton_append]

/-- The destructor deletes the timers that are still in the heap. -/
theorem destroy_spec (hh : Holds h l) (s : Store) :
    h.destroy s = .ok { s with deleted := s.deleted ++ l } := by
  obtain ⟨rest, harray⟩ := hh.used
  rw [TimeHeap.destroy, harray, hh.size]
  exact destroyLoop_spec rest l [] s

end Operations

end ServerListings.Interface
