import ServerListings.Interface.HeapInts
import ServerListings.Interface.HeapOperations

/-!
# One call of `percolate_down`

The call on a position whose children are the roots of ordered subtrees. Nothing is asked of
the rest of the array, which need not be in order: this is what the bottom-up loop of the
second constructor has at each of its calls.
-/

set_option autoImplicit false

namespace ServerListings.Analysis.SubtreeSift

open Lib.CMem Lib.HoleHeap ServerListings.Model ServerListings.Interface

/-- The subtree with the root `r` is in heap order. It is empty when `r` lies behind the list. -/
def SubtreeOrdered (s : Store) (l : List Ptr) (r : Nat) : Prop :=
  OrderedOn (Below r) (keys (expireOf s) l) l.length

/-- The root of an ordered subtree is due no later than what is below it. -/
theorem SubtreeOrdered.root_le {s : Store} {l : List Ptr} {r i : Nat} {x y : Ptr}
    (ho : SubtreeOrdered s l r) (hx : l[r]? = some x) (hbelow : Below r i) (hy : l[i]? = some y) :
    expireOf s x ≤ expireOf s y := by
  have hle := OrderedOn.root_le ho hbelow (List.getElem?_eq_some_iff.mp hy).1
  rwa [keys_of_getElem? hx, keys_of_getElem? hy] at hle

/-- `percolate_down` of `hole` on the timers `l`, with `rest` behind them in the array, comes to an
end. It puts the subtree of `hole` in order, its least timer first, and moves nothing else. -/
def Restored (s : Store) (l : List Ptr) (rest : List (Option Ptr)) (capacity hole : Nat) : Prop :=
  ∃ l', TimeHeap.percolateDownInt ⟨l.map some ++ rest, capacity, l.length⟩ s hole =
      .ok ⟨l'.map some ++ rest, capacity, l.length⟩ ∧
    SubtreeOrdered s l' hole ∧ l'.Perm l ∧ (∀ i, ¬ Below hole i → l'[i]? = l[i]?) ∧
    ∃ x, l'[hole]? = some x ∧
      ∀ i y, Below hole i → l'[i]? = some y → expireOf s x ≤ expireOf s y

/-- Up to `2 ^ 30` timers `percolate_down` restores the order of the subtree. -/
theorem percolateDown_subtree (s : Store) (l : List Ptr) (rest : List (Option Ptr))
    (capacity hole : Nat) (hsize : l.length ≤ 2 ^ 30) (hlt : hole < l.length)
    (hleft : SubtreeOrdered s l (hole * 2 + 1)) (hright : SubtreeOrdered s l (hole * 2 + 2)) :
    Restored s l rest capacity hole := by
  have hchildren : ∀ c, 0 < c → parent c = hole → c < l.length →
      OrderedOn (Below c) (keys (expireOf s) l) l.length := by
    intro c hc hpc _
    rcases (parent_eq_iff hc).mp hpc with rfl | rfl
    · exact hleft
    · exact hright
  have hclosed : ∀ i, 0 < i → Below hole (parent i) → Below hole i := fun i hi hp => .child hi hp
  obtain ⟨l', hdown, hperm, hord, hframe⟩ :=
    percolateDown_on (h := ⟨l.map some ++ rest, capacity, l.length⟩) hclosed rfl rfl hlt .root
      (downHoleOn_start hchildren)
  have hlt' : hole < l'.length := by rwa [hperm.length_eq]
  have hx := List.getElem?_eq_getElem hlt'
  -- no child's number is too great for an int
  have hint := (percolateDownInt_same (s := s) (h := ⟨l.map some ++ rest, capacity, l.length⟩)
    (Nat.le_sub_one_of_lt hlt)).eq_of hsize
  refine ⟨l', hint.trans hdown, hord, hperm, hframe, l'[hole], hx, ?_⟩
  intro i y hbelow hy
  exact SubtreeOrdered.root_le hord hx hbelow hy

/-- A store whose timers are due in the order of their addresses. -/
def byAddress : Store := ⟨fun p => ⟨p, none, 0⟩, [], []⟩

/-- Seven timers whose first one is out of place, and a late timer above two earlier ones. -/
theorem percolateDown_subtree_late : Restored byAddress [9, 8, 1, 5, 3, 2, 7] [none] 8 1 := by
  -- the children of position 1 have no children themselves
  have hleaf : ∀ r, 3 ≤ r → SubtreeOrdered byAddress [9, 8, 1, 5, 3, 2, 7] r := by
    intro r hr i hi hin hbelow
    have hle := hbelow.le
    have hlen : i < 7 := hin
    unfold parent at hle
    omega
  exact percolateDown_subtree byAddress [9, 8, 1, 5, 3, 2, 7] [none] 8 1 (by decide) (by decide)
    (hleaf _ (by decide)) (hleaf _ (by decide))

/-- The loop stops with an overflow at a hole whose children have no number of type `int`. -/
theorem percolateDownInt_overflow {s : Store} {h : TimeHeap} {hole : Nat} {p : Option Ptr}
    (hload : load h.array hole = .ok p) (hlarge : intMax < (hole * 2 + 1 : Nat)) :
    h.percolateDownInt s hole = .error .overflow := by
  have hloop : percolateLoopInt s h.curSize p (h.curSize + 1) h.array hole = .error .overflow := by
    rw [percolateLoopInt, intOf_of_lt hlarge]
    rfl
  rw [TimeHeap.percolateDownInt, hload, ok_bind, hloop]
  rfl

/-- In a heap that ends with `hole` no timer lies below its children. -/
theorem childless {s : Store} {l : List Ptr} {hole r : Nat} (hlen : l.length = hole + 1)
    (hr : hole < r) : SubtreeOrdered s l r := by
  intro i hpos hin hbelow
  have hle := hbelow.le
  have hparent : parent i ≤ i - 1 := Nat.div_le_self (i - 1) 2
  omega

/-- The last one of `hole + 1` timers, where the number of its left child does not fit into an `int`. -/
theorem not_restored {s : Store} {hole : Nat} {p : Ptr} (hlarge : intMax < (hole * 2 + 1 : Nat)) :
    ¬ Restored s (List.replicate (hole + 1) p) [] (hole + 1) hole := by
  rintro ⟨l', hdown, -⟩
  have hload : load ((List.replicate (hole + 1) p).map some ++ []) hole = .ok (some p) := by
    rw [List.append_nil, List.map_replicate, load, List.getElem?_replicate,
      if_pos (Nat.lt_succ_self hole)]
  rw [percolateDownInt_overflow hload hlarge] at hdown
  cases hdown

/-- With one timer more, the last one has no child, but `percolate_down` multiplies its number
by two. -/
theorem percolateDown_not_always :
    ¬ ∀ (s : Store) (l : List Ptr) (rest : List (Option Ptr)) (capacity hole : Nat),
      hole < l.length → SubtreeOrdered s l (hole * 2 + 1) → SubtreeOrdered s l (hole * 2 + 2) →
      Restored s l rest capacity hole := by
  intro hall
  have hlen : (List.replicate (2 ^ 30 + 1) (1 : Ptr)).length = 2 ^ 30 + 1 := List.length_replicate
  have hrestored := hall byAddress (List.replicate (2 ^ 30 + 1) 1) [] (2 ^ 30 + 1) (2 ^ 30)
    (by rw [hlen]; exact Nat.lt_succ_self _) (childless hlen (by decide))
    (childless hlen (by decide))
  exact not_restored (by decide) hrestored

end ServerListings.Analysis.SubtreeSift
