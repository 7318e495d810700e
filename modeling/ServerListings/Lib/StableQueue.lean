import Mathlib.Data.List.DropRight
import Mathlib.Data.List.Induction
import Mathlib.Data.List.Nodup
import Mathlib.Order.Lattice

/-!
# Stable sorted sequences

A sequence of entries, each a name with a key, in the order of the keys. A new entry goes
behind the last one whose key is no greater than its own, so entries with the same key stay in
the order of their insertion.
-/

set_option autoImplicit false

namespace Lib.StableQueue

section Names

variable {α κ : Type} {q a b : List (α × κ)} {x : α × κ}

def names (q : List (α × κ)) : List α := q.map Prod.fst

/-- The names of two queues, one behind the other. -/
@[simp] theorem names_append : names (a ++ b) = names a ++ names b := List.map_append

/-- The name of the first entry comes first. -/
@[simp] theorem names_cons : names (x :: q) = x.1 :: names q := rfl

/-- The empty queue has no names. -/
@[simp] theorem names_nil : names ([] : List (α × κ)) = [] := rfl

/-- The name of an entry is one of the queue's. -/
theorem mem_names (h : x ∈ q) : x.1 ∈ names q := List.mem_map_of_mem h

end Names

section Keys

variable {α κ : Type} [LinearOrder κ] {q a b c d : List (α × κ)} {x y : α × κ} {k : κ}

def Sorted (q : List (α × κ)) : Prop := q.Pairwise (·.2 ≤ ·.2)

/-- The entry is put behind the last one whose key is no greater. -/
def enqueue (x : α × κ) (q : List (α × κ)) : List (α × κ) :=
  q.rdropWhile (x.2 < ·.2) ++ x :: q.rtakeWhile (x.2 < ·.2)

/-- The entries whose keys are at most `k`. -/
def due (k : κ) (q : List (α × κ)) : List (α × κ) := q.filter (·.2 ≤ k)

/-- The entries whose keys are greater than `k`. -/
def later (k : κ) (q : List (α × κ)) : List (α × κ) := q.filter (k < ·.2)

/-! ## Inserting -/

/-- The place of an entry is behind the ones that are no greater and before the greater ones. -/
theorem enqueue_append (hc : ∀ y, c.getLast? = some y → y.2 ≤ x.2) (hd : ∀ y ∈ d, x.2 < y.2) :
    enqueue x (c ++ d) = c ++ x :: d := by
  have hdrop : (c ++ d).rdropWhile (x.2 < ·.2) = c := by
    induction d using List.reverseRecOn with
    | nil =>
      rw [List.append_nil, List.rdropWhile_eq_self_iff]
      intro hne
      rw [decide_eq_true_eq, not_lt]
      exact hc _ (List.getLast?_eq_some_getLast hne)
    | append_singleton d y ih =>
      have hy : (fun z : α × κ => decide (x.2 < z.2)) y = true := by
        rw [decide_eq_true_eq]
        exact hd y (List.mem_append_right _ (List.mem_singleton_self y))
      rw [← List.append_assoc, List.rdropWhile_concat, if_pos hy]
      apply ih
      intro z hz
      exact hd z (List.mem_append_left _ hz)
  have htake : (c ++ d).rdropWhile (x.2 < ·.2) ++ (c ++ d).rtakeWhile (x.2 < ·.2) = c ++ d :=
    List.rdropWhile_append_rtakeWhile
  rw [hdrop] at htake
  rw [enqueue, hdrop, List.append_cancel_left htake]

/-- A queue has its entries and the new one. -/
theorem enqueue_perm (x : α × κ) (q : List (α × κ)) : (enqueue x q).Perm (x :: q) := by
  apply List.perm_middle.trans
  rw [List.rdropWhile_append_rtakeWhile]

/-- No key is greater than the last one. -/
theorem Sorted.le_last (h : Sorted c) (hy : c.getLast? = some y) {z : α × κ} (hz : z ∈ c) :
    z.2 ≤ y.2 := by
  obtain ⟨e, rfl⟩ := List.getLast?_eq_some_iff.mp hy
  rcases List.mem_append.mp hz with hze | hzy
  · exact (List.pairwise_append.mp h).2.2 z hze y (List.mem_singleton_self y)
  · rw [List.mem_singleton.mp hzy]

/-- A sorted queue stays sorted when an entry is put in its place. -/
theorem Sorted.enqueue (h : Sorted q) (x : α × κ) : Sorted (enqueue x q) := by
  have hsplit : q.rdropWhile (x.2 < ·.2) ++ q.rtakeWhile (x.2 < ·.2) = q :=
    List.rdropWhile_append_rtakeWhile
  have h' := h
  rw [← hsplit] at h'
  obtain ⟨hc, hd, hcd⟩ := List.pairwise_append.mp h'
  have hle : ∀ y ∈ q.rdropWhile (x.2 < ·.2), y.2 ≤ x.2 := by
    intro y hy
    have hne := List.ne_nil_of_mem hy
    have hlast := List.rdropWhile_last_not _ _ hne
    rw [decide_eq_true_eq, not_lt] at hlast
    exact (Sorted.le_last hc (List.getLast?_eq_some_getLast hne) hy).trans hlast
  apply List.pairwise_append.mpr
  refine ⟨hc, List.pairwise_cons.mpr ⟨?_, hd⟩, ?_⟩
  · intro y hy
    have hlt := List.mem_rtakeWhile_imp hy
    rw [decide_eq_true_eq] at hlt
    exact le_of_lt hlt
  · intro y hy z hz
    rcases List.mem_cons.mp hz with rfl | hz
    · exact hle y hy
    · exact hcd y hy z hz

/-- The keys of a sorted sequence are greater than `k` when the first one is. -/
theorem Sorted.lt_of_head (h : Sorted d) (hhead : ∀ y, d.head? = some y → k < y.2) (hy : y ∈ d) :
    k < y.2 := by
  cases d with
  | nil => cases hy
  | cons z d =>
    have hz := hhead z rfl
    rcases List.mem_cons.mp hy with rfl | hy
    · exact hz
    · exact hz.trans_le ((List.pairwise_cons.mp h).1 y hy)

/-! ## The entries that are due -/

/-- An entry that is due is the first of those that are. -/
theorem due_cons (h : x.2 ≤ k) : due k (x :: q) = x :: due k q :=
  List.filter_cons_of_pos (decide_eq_true h)

/-- An entry that is due is not left. -/
theorem later_cons (h : x.2 ≤ k) : later k (x :: q) = later k q := by
  apply List.filter_cons_of_neg
  rw [decide_eq_true_eq]
  exact not_lt.mpr h

/-- No entry of a sorted sequence is due when the first one is not. -/
theorem Sorted.none_due (h : Sorted (x :: q)) (hx : k < x.2) :
    due k (x :: q) = [] ∧ later k (x :: q) = x :: q := by
  have hlt : ∀ y ∈ x :: q, k < y.2 := by
    intro y hy
    apply h.lt_of_head _ hy
    intro z hz
    rwa [← Option.some.inj hz]
  constructor
  · apply List.filter_eq_nil_iff.mpr
    intro y hy
    rw [decide_eq_true_eq]
    exact not_le.mpr (hlt y hy)
  · apply List.filter_eq_self.mpr
    intro y hy
    exact decide_eq_true (hlt y hy)

end Keys

section Changes

variable {α κ : Type} [DecidableEq α] {q a b : List (α × κ)} {p : α} {k : κ}

def remove (p : α) (q : List (α × κ)) : List (α × κ) := q.filter (·.1 ≠ p)

/-- Where the name is missing nothing is removed. -/
theorem remove_of_notMem (h : p ∉ names q) : remove p q = q := by
  apply List.filter_eq_self.mpr
  intro x hx
  apply decide_eq_true
  rintro rfl
  exact h (mem_names hx)

/-- A name stands for one entry. -/
theorem remove_append (h : (names (a ++ (p, k) :: b)).Nodup) :
    remove p (a ++ (p, k) :: b) = a ++ b := by
  rw [names_append, names_cons, List.nodup_middle] at h
  have hnot := (List.nodup_cons.mp h).1
  rw [← names_append] at hnot
  have hself : remove p (a ++ (p, k) :: b) = remove p (a ++ b) := by
    rw [remove, remove, List.filter_append, List.filter_append,
      List.filter_cons_of_neg (by simp)]
  rw [hself, remove_of_notMem hnot]

/-- The entry of `p` gets the key `k` and its place by that key. -/
def adjust [LinearOrder κ] (p : α) (k : κ) (q : List (α × κ)) : List (α × κ) := enqueue (p, k) (remove p q)

end Changes

end Lib.StableQueue
