import Mathlib.Data.List.Basic
import Mathlib.Logic.Function.Basic

/-!
# Timing wheels

A timing wheel has `N` slots and a hand. An entry lies in a slot with the number of turns that
the hand still has to make before the entry expires. An entry that is put in with a delay of
`d` advances is found expired by the advance that comes after `d` others (`timely`).

The entries carry a payload in `α`, and `key` names a payload. The statements are about the
entries of one key, of which there is one at most.
-/

set_option autoImplicit false

namespace Lib.TimingWheel

/-- The slots, with the turns left of each entry, and the hand. -/
structure Wheel (N : Nat) (α : Type) where
  slots : Fin N → List (α × Nat)
  cur : Fin N

/-! ## Distances -/

section Distances

variable {N : Nat}

/-- The slot that the hand comes to after `d` advances. -/
def slotAfter (cur : Fin N) (d : Nat) : Fin N := ⟨(cur + d % N) % N, Nat.mod_lt _ cur.pos⟩

/-- How many advances come before the one that finds an entry of slot `i` with `r` turns left
expired. -/
def delay (cur i : Fin N) (r : Nat) : Nat := N * r + (i + N - cur) % N

/-- The remainder of a number that wraps around once. -/
theorem mod_of_wrap {n N : Nat} (hle : N ≤ n) (hlt : n < N + N) : n % N = n - N := by
  rw [Nat.mod_eq_sub_mod hle]
  exact Nat.mod_eq_of_lt (by omega)

/-- The slot and the rotations that are computed from a delay give it back. -/
theorem delay_slotAfter (cur : Fin N) (d : Nat) : delay cur (slotAfter cur d) (d / N) = d := by
  have hcur := cur.isLt
  have hlt : d % N < N := Nat.mod_lt _ cur.pos
  have hdist : ((cur + d % N) % N + N - cur) % N = d % N := by
    rcases Nat.lt_or_ge (cur + d % N) N with hsum | hsum
    · rw [Nat.mod_eq_of_lt hsum, mod_of_wrap (by omega) (by omega)]
      omega
    · rw [mod_of_wrap hsum (by omega), Nat.mod_eq_of_lt (by omega)]
      omega
  unfold delay slotAfter
  rw [hdist]
  exact Nat.div_add_mod d N

/-- The distance to the slot at the hand is a full turn after an advance. -/
theorem delay_advance_self (cur : Fin N) (r : Nat) :
    delay (slotAfter cur 1) cur r + 1 = delay cur cur (r + 1) := by
  have hcur := cur.isLt
  have hmul : N * (r + 1) = N * r + N := Nat.mul_succ N r
  unfold delay slotAfter
  simp only
  rw [Nat.add_sub_cancel_left, Nat.mod_self, hmul]
  rcases Nat.lt_or_ge 1 N with hone | hone
  · rw [Nat.mod_eq_of_lt hone]
    rcases Nat.lt_or_ge (cur + 1) N with hsum | hsum
    · rw [Nat.mod_eq_of_lt hsum, Nat.mod_eq_of_lt (by omega : (cur : Nat) + N - (cur + 1) < N)]
      omega
    · rw [mod_of_wrap hsum (by omega), mod_of_wrap (by omega) (by omega)]
      omega
  · obtain rfl : N = 1 := by omega
    simp only [Nat.mod_one]

/-- One move of the wheel brings the entries of the other slots one tick nearer. -/
theorem delay_advance_of_ne {cur i : Fin N} (hne : i ≠ cur) (r : Nat) :
    delay (slotAfter cur 1) i r + 1 = delay cur i r := by
  have hcur := cur.isLt
  have hi := i.isLt
  have hval : (i : Nat) ≠ cur := fun heq => hne (Fin.ext heq)
  unfold delay slotAfter
  simp only
  rw [Nat.mod_eq_of_lt (by omega : 1 < N)]
  rcases Nat.lt_or_ge (cur + 1) N with hsum | hsum
  · rw [Nat.mod_eq_of_lt hsum]
    rcases Nat.lt_or_ge i cur with hlt | hge
    · rw [Nat.mod_eq_of_lt (by omega), Nat.mod_eq_of_lt (by omega)]
      omega
    · rw [mod_of_wrap (by omega) (by omega), mod_of_wrap (by omega) (by omega)]
      omega
  · rw [mod_of_wrap hsum (by omega), Nat.mod_eq_of_lt (by omega : (i : Nat) + N - cur < N),
      mod_of_wrap (by omega) (by omega)]
    omega

/-- An entry that is put in during an advance misses it. Where the delay is a number of full
turns it lies in the slot that the hand is leaving, and it loses one turn more. -/
theorem delay_put_in (cur : Fin N) {d : Nat} (hd : 1 ≤ d) :
    delay (slotAfter cur 1) (slotAfter cur d) (d / N) = if d % N = 0 then d + N - 1 else d - 1 := by
  have hpos := cur.pos
  have hdelay := delay_slotAfter cur d
  by_cases hfull : d % N = 0
  · have hself : slotAfter cur d = cur := by
      apply Fin.ext
      unfold slotAfter
      simp only [hfull, Nat.add_zero]
      exact Nat.mod_eq_of_lt cur.isLt
    rw [hself] at hdelay
    have hadvance := delay_advance_self cur (d / N)
    have hturn : delay cur cur (d / N + 1) = delay cur cur (d / N) + N := by
      unfold delay
      rw [Nat.mul_succ]
      omega
    rw [if_pos hfull, hself]
    omega
  · have hne : slotAfter cur d ≠ cur := by
      intro heq
      have hval := congrArg Fin.val heq
      unfold slotAfter at hval
      simp only at hval
      have hlt : d % N < N := Nat.mod_lt _ hpos
      have hcur := cur.isLt
      rcases Nat.lt_or_ge (cur + d % N) N with hsum | hsum
      · rw [Nat.mod_eq_of_lt hsum] at hval
        omega
      · rw [mod_of_wrap hsum (by omega)] at hval
        omega
    have hadvance := delay_advance_of_ne hne (d / N)
    rw [if_neg hfull]
    omega

/-- Only the entries without turns left in the slot at the hand have no delay. -/
theorem delay_eq_zero_iff (cur i : Fin N) (r : Nat) : delay cur i r = 0 ↔ i = cur ∧ r = 0 := by
  have hpos := cur.pos
  have hcur := cur.isLt
  have hi := i.isLt
  constructor
  · intro hzero
    unfold delay at hzero
    have hr : N * r = 0 := by omega
    refine ⟨?_, (Nat.mul_eq_zero.mp hr).resolve_left (Nat.ne_of_gt hpos)⟩
    apply Fin.ext
    rcases Nat.lt_or_ge i cur with hlt | hge
    · rw [Nat.mod_eq_of_lt (by omega)] at hzero
      omega
    · rw [mod_of_wrap (by omega) (by omega)] at hzero
      omega
  · rintro ⟨rfl, rfl⟩
    unfold delay
    rw [Nat.add_sub_cancel_left, Nat.mod_self]
    rfl

end Distances

/-! ## The operations -/

section Operations

variable {N : Nat} {α κ : Type}

/-- The payloads of the entries without turns left. -/
def expired (l : List (α × Nat)) : List α := (l.filter (·.2 = 0)).map Prod.fst

/-- The other entries, with one turn less. -/
def turned (l : List (α × Nat)) : List (α × Nat) :=
  (l.filter (0 < ·.2)).map fun e => (e.1, e.2 - 1)

/-- An entry without rotations expires. -/
theorem expired_cons_zero (x : α) (l : List (α × Nat)) :
    expired ((x, 0) :: l) = x :: expired l := rfl

/-- An entry with rotations does not expire. -/
theorem expired_cons_succ (x : α) (r : Nat) (l : List (α × Nat)) :
    expired ((x, r + 1) :: l) = expired l := rfl

/-- An entry that expires is taken out of its slot. -/
theorem turned_cons_zero (x : α) (l : List (α × Nat)) : turned ((x, 0) :: l) = turned l := rfl

/-- An entry with rotations loses one of them. -/
theorem turned_cons_succ (x : α) (r : Nat) (l : List (α × Nat)) :
    turned ((x, r + 1) :: l) = (x, r) :: turned l := by
  unfold turned
  rw [List.filter_cons_of_pos (by simp)]
  rfl

/-- The empty wheel. -/
def empty (cur : Fin N) : Wheel N α := ⟨fun _ => [], cur⟩

/-- An entry is put in with a delay, in front of the others of its slot. -/
def Wheel.insert (w : Wheel N α) (x : α) (d : Nat) : Wheel N α where
  slots := Function.update w.slots (slotAfter w.cur d) ((x, d / N) :: w.slots (slotAfter w.cur d))
  cur := w.cur

/-- The hand goes on. The slot that it leaves keeps the entries with turns left. -/
def Wheel.advance (w : Wheel N α) : Wheel N α where
  slots := Function.update w.slots w.cur (turned (w.slots w.cur))
  cur := slotAfter w.cur 1

/-- The payloads that an advance finds expired. -/
def Wheel.fired (w : Wheel N α) : List α := expired (w.slots w.cur)

/-- The entries of a list are put in one after the other. -/
def Wheel.insertAll (w : Wheel N α) (xs : List (α × Nat)) : Wheel N α :=
  xs.foldl (fun w x => w.insert x.1 x.2) w

/-- What these insertions put in front of a slot. -/
def pushed (cur : Fin N) (xs : List (α × Nat)) (j : Fin N) : List (α × Nat) :=
  ((xs.filter fun x => slotAfter cur x.2 = j).map fun x => (x.1, x.2 / N)).reverse

/-- Records are inserted one after the other. -/
theorem Wheel.insertAll_append (w : Wheel N α) (xs ys : List (α × Nat)) :
    w.insertAll (xs ++ ys) = (w.insertAll xs).insertAll ys := List.foldl_append

/-- Insertions leave the wheel where it stands. -/
theorem Wheel.insertAll_cur (w : Wheel N α) (xs : List (α × Nat)) : (w.insertAll xs).cur = w.cur := by
  induction xs generalizing w with
  | nil => rfl
  | cons x xs ih => exact ih (w.insert x.1 x.2)

/-- What is inserted comes in front of what a slot has. -/
theorem Wheel.insertAll_slots (w : Wheel N α) (xs : List (α × Nat)) (j : Fin N) :
    (w.insertAll xs).slots j = pushed w.cur xs j ++ w.slots j := by
  induction xs generalizing w with
  | nil => rfl
  | cons x xs ih =>
    have hrest : (w.insertAll (x :: xs)).slots j = pushed w.cur xs j ++ (w.insert x.1 x.2).slots j :=
      ih (w.insert x.1 x.2)
    rw [hrest]
    unfold pushed Wheel.insert
    simp only
    by_cases hj : slotAfter w.cur x.2 = j
    · subst hj
      rw [List.filter_cons_of_pos (by simp), List.map_cons, List.reverse_cons, Function.update_self,
        List.append_assoc]
      rfl
    · rw [List.filter_cons_of_neg (by simpa using hj), Function.update_of_ne (Ne.symm hj)]

/-- The hand goes on while entries are put in: those that are in the slot that it leaves have
made their turn, the new ones have not. -/
def Wheel.advanceInserting (w : Wheel N α) (xs : List (α × Nat)) : Wheel N α where
  slots := (Wheel.insertAll ⟨Function.update w.slots w.cur (turned (w.slots w.cur)), w.cur⟩ xs).slots
  cur := slotAfter w.cur 1

/-- The slots after a tick that inserts records. -/
theorem Wheel.advanceInserting_slots (w : Wheel N α) (xs : List (α × Nat)) (j : Fin N) :
    (w.advanceInserting xs).slots j = pushed w.cur xs j ++ w.advance.slots j :=
  Wheel.insertAll_slots _ xs j

variable [DecidableEq κ] (key : α → κ)

/-- The entries of a key are taken out. -/
def Wheel.remove (w : Wheel N α) (k : κ) : Wheel N α where
  slots i := (w.slots i).filter fun e => key e.1 ≠ k
  cur := w.cur

/-- What may happen to a wheel. -/
inductive Op (α κ : Type)
  | insert (x : α) (d : Nat)
  | remove (k : κ)
  | advance
  deriving DecidableEq

/-- A wheel and what its advances found expired so far. -/
structure History (N : Nat) (α : Type) where
  wheel : Wheel N α
  log : List α

/-- An advance during which entries are put in. -/
def History.advanceInserting (h : History N α) (xs : List (α × Nat)) : History N α :=
  ⟨h.wheel.advanceInserting xs, h.log ++ h.wheel.fired⟩

def History.apply (h : History N α) : Op α κ → History N α
  | .insert x d => { h with wheel := h.wheel.insert x d }
  | .remove k => { h with wheel := h.wheel.remove key k }
  | .advance => ⟨h.wheel.advance, h.log ++ h.wheel.fired⟩

/-- The entries of a key in a list. -/
def entriesOf (k : κ) (l : List (α × Nat)) : List (α × Nat) := l.filter fun e => key e.1 = k

/-- The payloads of a key in a log. -/
def recordsOf (k : κ) (l : List α) : List α := l.filter fun x => key x = k

/-! ## Every entry expires in time -/

variable {key} {h : History N α} {k : κ} {i : Fin N} {x y : α} {d n : Nat}

/-- The entries of a key turn with their slot. -/
theorem entriesOf_turned (k : κ) (l : List (α × Nat)) :
    entriesOf key k (turned l) = turned (entriesOf key k l) := by
  unfold entriesOf turned
  rw [List.filter_map, List.filter_filter, List.filter_filter]
  congr 1
  apply List.filter_congr
  intro e _
  exact Bool.and_comm _ _

/-- The records of a key that expire are those of its entries. -/
theorem recordsOf_expired (k : κ) (l : List (α × Nat)) :
    recordsOf key k (expired l) = expired (entriesOf key k l) := by
  unfold recordsOf entriesOf expired
  rw [List.filter_map, List.filter_filter, List.filter_filter]
  congr 1
  apply List.filter_congr
  intro e _
  exact Bool.and_comm _ _

/-- The records of a key in two logs, one after the other. -/
theorem recordsOf_append (k : κ) (l l' : List α) :
    recordsOf key k (l ++ l') = recordsOf key k l ++ recordsOf key k l' :=
  List.filter_append ..

/-- Slot `i` holds the one entry with the key of `x`, which is due after `n` more advances, and
no advance found it expired so far. -/
def Pending (key : α → κ) (h : History N α) (i : Fin N) (x : α) (n : Nat) : Prop :=
  recordsOf key (key x) h.log = [] ∧ ∃ r, delay h.wheel.cur i r = n ∧
    ∀ j, entriesOf key (key x) (h.wheel.slots j) = if j = i then [(x, r)] else []

/-- No slot holds an entry of the key, and the log has these records of it. -/
def Settled (key : α → κ) (h : History N α) (k : κ) (records : List α) : Prop :=
  recordsOf key k h.log = records ∧ ∀ j, entriesOf key k (h.wheel.slots j) = []

/-- The key of an operation, if it concerns one. -/
def Op.Concerns (key : α → κ) (k : κ) : Op α κ → Prop
  | .insert x _ => key x = k
  | .remove k' => k' = k
  | .advance => False

/-- An insertion leaves the entries of other keys alone. -/
theorem entriesOf_insert (w : Wheel N α) (y : α) (d : Nat) (hne : key y ≠ k) (j : Fin N) :
    entriesOf key k ((w.insert y d).slots j) = entriesOf key k (w.slots j) := by
  unfold Wheel.insert
  by_cases hj : j = slotAfter w.cur d
  · subst hj
    simp only [Function.update_self]
    exact List.filter_cons_of_neg (by simpa using hne)
  · simp only [Function.update_of_ne hj]

/-- A removal leaves the entries of other keys alone. -/
theorem entriesOf_remove (w : Wheel N α) {k' : κ} (hne : k' ≠ k) (j : Fin N) :
    entriesOf key k ((w.remove key k').slots j) = entriesOf key k (w.slots j) := by
  unfold Wheel.remove entriesOf
  rw [List.filter_filter]
  apply List.filter_congr
  intro e _
  by_cases hk : key e.1 = k
  · simp [hk, Ne.symm hne]
  · simp [hk]

/-- A tick turns the entries of the current slot only. -/
theorem entriesOf_advance (w : Wheel N α) (j : Fin N) : entriesOf key k (w.advance.slots j) =
    if j = w.cur then turned (entriesOf key k (w.slots j)) else entriesOf key k (w.slots j) := by
  unfold Wheel.advance
  by_cases hj : j = w.cur
  · subst hj
    rw [if_pos rfl, ← entriesOf_turned]
    simp only [Function.update_self]
  · rw [if_neg hj]
    simp only [Function.update_of_ne hj]

/-- Putting in the first entry of a key. -/
theorem Settled.insert (hs : Settled key h (key x) []) (d : Nat) :
    Pending key (h.apply key (.insert x d)) (slotAfter h.wheel.cur d) x d := by
  obtain ⟨hlog, hslots⟩ := hs
  refine ⟨hlog, d / N, delay_slotAfter h.wheel.cur d, ?_⟩
  intro j
  have hj := hslots j
  simp only [History.apply, Wheel.insert]
  by_cases heq : j = slotAfter h.wheel.cur d
  · subst heq
    rw [if_pos rfl, Function.update_self]
    unfold entriesOf at hj ⊢
    rw [List.filter_cons_of_pos (by simp), hj]
  · rw [if_neg heq, Function.update_of_ne heq]
    exact hj

/-- What concerns another key leaves the entries and the records of this one alone. -/
theorem entriesOf_apply {op : Op α κ} (hop : ¬ op.Concerns key k) (hadv : op ≠ .advance)
    (j : Fin N) :
    entriesOf key k ((h.apply key op).wheel.slots j) = entriesOf key k (h.wheel.slots j) := by
  cases op with
  | insert y e => exact entriesOf_insert h.wheel y e hop j
  | remove k' => exact entriesOf_remove h.wheel hop j
  | advance => exact absurd rfl hadv

/-- Only a tick moves the wheel. -/
theorem cur_apply {op : Op α κ} (hadv : op ≠ .advance) :
    (h.apply key op).wheel.cur = h.wheel.cur := by
  cases op with
  | insert y e => rfl
  | remove k' => rfl
  | advance => exact absurd rfl hadv

/-- Only a tick is seen in the log. -/
theorem log_apply {op : Op α κ} (hadv : op ≠ .advance) : (h.apply key op).log = h.log := by
  cases op with
  | insert y e => rfl
  | remove k' => rfl
  | advance => exact absurd rfl hadv

/-- An operation on other keys leaves a record pending. -/
theorem Pending.apply {op : Op α κ} (hp : Pending key h i x n) (hop : ¬ op.Concerns key (key x))
    (hadv : op ≠ .advance) : Pending key (h.apply key op) i x n := by
  obtain ⟨hlog, r, hdelay, hslots⟩ := hp
  refine ⟨(log_apply hadv).symm ▸ hlog, r, (cur_apply hadv).symm ▸ hdelay, ?_⟩
  intro j
  rw [entriesOf_apply hop hadv]
  exact hslots j

/-- A tick adds what expires in the current slot to the log. -/
theorem recordsOf_fired (h : History N α) (k : κ) : recordsOf key k (h.apply key .advance).log =
    recordsOf key k h.log ++ expired (entriesOf key k (h.wheel.slots h.wheel.cur)) := by
  simp only [History.apply, Wheel.fired]
  rw [recordsOf_append, recordsOf_expired]

/-- An advance brings an entry one advance nearer. -/
theorem Pending.advance (hp : Pending key h i x (n + 1)) :
    Pending key (h.apply key .advance) i x n := by
  obtain ⟨hlog, r, hdelay, hslots⟩ := hp
  have hstay (r' : Nat) (hcur : expired (entriesOf key (key x) (h.wheel.slots h.wheel.cur)) = [])
      (hr' : delay (slotAfter h.wheel.cur 1) i r' = n)
      (hall : ∀ j, entriesOf key (key x) (h.wheel.advance.slots j) = if j = i then [(x, r')] else []) :
      Pending key (h.apply key .advance) i x n := by
    refine ⟨?_, r', hr', hall⟩
    rw [recordsOf_fired, hlog, hcur, List.append_nil]
  by_cases hi : i = h.wheel.cur
  · subst hi
    cases r with
    | zero => exact absurd (hdelay.symm.trans ((delay_eq_zero_iff _ _ _).mpr ⟨rfl, rfl⟩)) (by omega)
    | succ r =>
      have hsame := delay_advance_self h.wheel.cur r
      apply hstay r
      · rw [hslots, if_pos rfl]
        rfl
      · omega
      · intro j
        rw [entriesOf_advance, hslots]
        by_cases hj : j = h.wheel.cur
        · rw [if_pos hj, if_pos hj, if_pos hj]
          rfl
        · rw [if_neg hj, if_neg hj, if_neg hj]
  · have hsame := delay_advance_of_ne hi r
    apply hstay r
    · rw [hslots, if_neg (Ne.symm hi)]
      rfl
    · omega
    · intro j
      rw [entriesOf_advance, hslots]
      by_cases hj : j = h.wheel.cur
      · rw [if_pos hj, if_neg (hj ▸ Ne.symm hi)]
        rfl
      · rw [if_neg hj]

/-- The advance that finds an entry without delay puts it into the log and drops it. -/
theorem Pending.fire (hp : Pending key h i x 0) :
    Settled key (h.apply key .advance) (key x) [x] := by
  obtain ⟨hlog, r, hdelay, hslots⟩ := hp
  obtain ⟨rfl, rfl⟩ := (delay_eq_zero_iff _ _ _).mp hdelay
  constructor
  · rw [recordsOf_fired, hlog, hslots, if_pos rfl]
    rfl
  · intro j
    change entriesOf key (key x) (h.wheel.advance.slots j) = []
    rw [entriesOf_advance, hslots]
    by_cases hj : j = h.wheel.cur
    · rw [if_pos hj, if_pos hj]
      rfl
    · rw [if_neg hj, if_neg hj]

/-- Once no slot holds an entry of a key, nothing but an insertion brings one back. -/
theorem Settled.apply {op : Op α κ} {records : List α} (hs : Settled key h k records)
    (hop : ∀ y e, op = .insert y e → key y ≠ k) : Settled key (h.apply key op) k records := by
  obtain ⟨hlog, hslots⟩ := hs
  cases op with
  | insert y e =>
    refine ⟨hlog, fun j => ?_⟩
    exact (entriesOf_insert h.wheel y e (hop y e rfl) j).trans (hslots j)
  | remove k' =>
    refine ⟨hlog, fun j => ?_⟩
    have hnil := hslots j
    unfold entriesOf at hnil ⊢
    simp only [History.apply, Wheel.remove]
    rw [List.filter_comm, hnil]
    rfl
  | advance =>
    constructor
    · rw [recordsOf_fired, hlog, hslots]
      exact List.append_nil _
    · intro j
      change entriesOf key k (h.wheel.advance.slots j) = []
      rw [entriesOf_advance, hslots]
      split <;> rfl

/-- After a removal no slot holds an entry of the key. -/
theorem settled_remove (h : History N α) (k : κ) :
    Settled key (h.apply key (.remove k)) k (recordsOf key k h.log) := by
  refine ⟨rfl, fun j => ?_⟩
  apply List.filter_eq_nil_iff.mpr
  intro e he
  have hne := (List.mem_filter.mp he).2
  simpa using hne

/-! ## Insertions during an advance -/

/-- Insertions of other keys give no entries of the key. -/
theorem entriesOf_pushed_nil {cur : Fin N} {xs : List (α × Nat)} (hxs : ∀ x ∈ xs, key x.1 ≠ k)
    (j : Fin N) : entriesOf key k (pushed cur xs j) = [] := by
  apply List.filter_eq_nil_iff.mpr
  intro e he
  obtain ⟨x, hx, rfl⟩ := List.mem_map.mp (List.mem_reverse.mp he)
  simpa using hxs x (List.mem_filter.mp hx).1

/-- What two rounds of insertions put into a slot. -/
theorem pushed_append (cur : Fin N) (xs ys : List (α × Nat)) (j : Fin N) :
    pushed cur (xs ++ ys) j = pushed cur ys j ++ pushed cur xs j := by
  unfold pushed
  rw [List.filter_append, List.map_append, List.reverse_append]

/-- The entry of a key that is put in once. -/
theorem entriesOf_pushed {cur : Fin N} {xs ys : List (α × Nat)} (hxs : ∀ y ∈ xs, key y.1 ≠ key x)
    (hys : ∀ y ∈ ys, key y.1 ≠ key x) (j : Fin N) :
    entriesOf key (key x) (pushed cur (xs ++ (x, d) :: ys) j) =
      if j = slotAfter cur d then [(x, d / N)] else [] := by
  have hone : entriesOf key (key x) (pushed cur [(x, d)] j) =
      if j = slotAfter cur d then [(x, d / N)] else [] := by
    unfold pushed entriesOf
    by_cases hj : j = slotAfter cur d
    · subst hj
      rw [if_pos rfl, List.filter_cons_of_pos (by simp)]
      exact List.filter_cons_of_pos (by simp)
    · rw [if_neg hj, List.filter_cons_of_neg (by simpa using Ne.symm hj)]
      rfl
  rw [List.append_cons, pushed_append, pushed_append]
  unfold entriesOf at hone ⊢
  rw [List.filter_append, List.filter_append, hone]
  have hleft : entriesOf key (key x) (pushed cur xs j) = [] := entriesOf_pushed_nil hxs j
  have hright : entriesOf key (key x) (pushed cur ys j) = [] := entriesOf_pushed_nil hys j
  unfold entriesOf at hleft hright
  rw [hleft, hright, List.append_nil, List.nil_append]

/-- The entries of a key after a tick that inserts records. -/
theorem entriesOf_advanceInserting (w : Wheel N α) (xs : List (α × Nat)) (j : Fin N) :
    entriesOf key k ((w.advanceInserting xs).slots j) =
      entriesOf key k (pushed w.cur xs j) ++ entriesOf key k (w.advance.slots j) := by
  rw [Wheel.advanceInserting_slots]
  exact List.filter_append ..

/-- What is put in under other keys does not matter to an entry. -/
theorem entriesOf_advance_other {xs : List (α × Nat)} (hxs : ∀ y ∈ xs, key y.1 ≠ k) (w : Wheel N α)
    (j : Fin N) :
    entriesOf key k ((w.advanceInserting xs).slots j) = entriesOf key k (w.advance.slots j) := by
  rw [entriesOf_advanceInserting, entriesOf_pushed_nil hxs, List.nil_append]

/-- A tick brings a pending record one tick nearer, whatever is inserted. -/
theorem Pending.advanceInserting {xs : List (α × Nat)} (hp : Pending key h i x (n + 1))
    (hxs : ∀ y ∈ xs, key y.1 ≠ key x) : Pending key (h.advanceInserting xs) i x n := by
  obtain ⟨hlog, r, hdelay, hslots⟩ := hp.advance
  refine ⟨hlog, r, hdelay, fun j => ?_⟩
  exact (entriesOf_advance_other hxs h.wheel j).trans (hslots j)

/-- A record that is due fires at the tick, once. -/
theorem Pending.fireInserting {xs : List (α × Nat)} (hp : Pending key h i x 0)
    (hxs : ∀ y ∈ xs, key y.1 ≠ key x) : Settled key (h.advanceInserting xs) (key x) [x] := by
  obtain ⟨hlog, hslots⟩ := hp.fire
  exact ⟨hlog, fun j => (entriesOf_advance_other hxs h.wheel j).trans (hslots j)⟩

/-- What is settled stays so at a tick that inserts other keys. -/
theorem Settled.advanceInserting {xs : List (α × Nat)} {records : List α}
    (hs : Settled key h k records) (hxs : ∀ y ∈ xs, key y.1 ≠ k) :
    Settled key (h.advanceInserting xs) k records := by
  have hop : ∀ y e, (Op.advance : Op α κ) = .insert y e → key y ≠ k := by
    intro y e heq
    cases heq
  obtain ⟨hlog, hslots⟩ := hs.apply hop
  exact ⟨hlog, fun j => (entriesOf_advance_other hxs h.wheel j).trans (hslots j)⟩

/-- An entry that is put in during an advance is due as many advances later as its delay says,
this one counted, unless the delay is a number of full turns. Then it is one full turn late. -/
theorem Settled.insertDuring {xs ys : List (α × Nat)} (hs : Settled key h (key x) []) (hd : 1 ≤ d)
    (hxs : ∀ y ∈ xs, key y.1 ≠ key x) (hys : ∀ y ∈ ys, key y.1 ≠ key x) :
    Pending key (h.advanceInserting (xs ++ (x, d) :: ys)) (slotAfter h.wheel.cur d) x
      (if d % N = 0 then d + N - 1 else d - 1) := by
  have hop : ∀ y e, (Op.advance : Op α κ) = .insert y e → key y ≠ key x := by
    intro y e heq
    cases heq
  obtain ⟨hlog, hslots⟩ := hs.apply hop
  refine ⟨hlog, d / N, delay_put_in h.wheel.cur hd, fun j => ?_⟩
  have hadvance : entriesOf key (key x) (h.wheel.advance.slots j) = [] := hslots j
  show entriesOf key (key x) ((h.wheel.advanceInserting (xs ++ (x, d) :: ys)).slots j) = _
  rw [entriesOf_advanceInserting, hadvance, List.append_nil]
  exact entriesOf_pushed hxs hys j

/-! ## Runs of a wheel -/

variable (key) in
/-- The operations of a list, one after the other. -/
def History.run (h : History N α) (ops : List (Op α κ)) : History N α := ops.foldl (·.apply key ·) h

def Op.ticks : Op α κ → Nat
  | .advance => 1
  | _ => 0

/-- How many advances a list of operations makes. -/
def ticks (ops : List (Op α κ)) : Nat := ops.foldr (fun op n => op.ticks + n) 0

/-- What is settled stays so in a run without insertions of its key. -/
theorem Settled.run {records : List α} (hs : Settled key h k records) {ops : List (Op α κ)}
    (hops : ∀ y e, .insert y e ∈ ops → key y ≠ k) : Settled key (h.run key ops) k records := by
  induction ops generalizing h with
  | nil => exact hs
  | cons op ops ih =>
    apply ih
    · apply hs.apply
      rintro y e rfl
      exact hops y e List.mem_cons_self
    · intro y e hmem
      exact hops y e (List.mem_cons_of_mem _ hmem)

/-- An entry that is due after `n` advances waits in its slot until then, and is found expired
once by the advance behind them. -/
theorem Pending.run (hp : Pending key h i x n) {ops : List (Op α κ)}
    (hops : ∀ op ∈ ops, ¬ op.Concerns key (key x)) :
    (ticks ops ≤ n → Pending key (h.run key ops) i x (n - ticks ops)) ∧
      (n < ticks ops → Settled key (h.run key ops) (key x) [x]) := by
  induction ops generalizing h n with
  | nil => exact ⟨fun _ => hp, fun hlt => absurd hlt (Nat.not_lt_zero n)⟩
  | cons op ops ih =>
    have hop := hops op List.mem_cons_self
    have hrest : ∀ op ∈ ops, ¬ op.Concerns key (key x) :=
      fun op' hmem => hops op' (List.mem_cons_of_mem _ hmem)
    have hcount : ticks (op :: ops) = op.ticks + ticks ops := rfl
    by_cases hadv : op = .advance
    · subst hadv
      cases n with
      | zero =>
        have hlate : 0 < ticks (.advance :: ops) := by
          rw [hcount]
          exact Nat.lt_add_right _ Nat.one_pos
        refine ⟨fun hle => absurd hlate (Nat.not_lt.mpr hle), fun _ => ?_⟩
        apply Settled.run hp.fire
        intro y e hmem
        exact hrest _ hmem
      | succ n =>
        have hn := ih hp.advance hrest
        have hone : Op.ticks (.advance : Op α κ) = 1 := rfl
        rw [hcount, hone]
        constructor
        · intro hle
          have hdiff : n + 1 - (1 + ticks ops) = n - ticks ops := by omega
          rw [hdiff]
          exact hn.1 (by omega)
        · intro hlt
          exact hn.2 (by omega)
    · have hzero : op.ticks = 0 := by
        cases op with
        | insert y e => rfl
        | remove k' => rfl
        | advance => exact absurd rfl hadv
      rw [hcount, hzero, Nat.zero_add]
      exact ih (hp.apply hop hadv) hrest

end Operations

end Lib.TimingWheel
