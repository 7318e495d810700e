import Mathlib.Order.Lattice
import Mathlib.Data.List.Basic

/-!
# A binary heap with a hole

A binary heap is kept in an array: the parent of position `i` is position `(i - 1) / 2`. The
sift procedures move a hole along a path and fill it at the end. While they run, the array
whose hole is filled is a heap except at the hole; `UpHole` and `DownHole` say in which way,
and each has one rule for moving the hole and one for stopping.

The keys at the positions are a function `k`, so that the order is a statement about numbers
and needs no array. `keys` reads such a function off a list, and moving the hole of a list is
exchanging two keys (`swapped_keys`) and permuting the filled list (`fill_move_perm`).
-/

set_option autoImplicit false

namespace Lib.HoleHeap

def parent (i : Nat) : Nat := (i - 1) / 2

/-- A parent comes before its child. -/
theorem parent_lt {i : Nat} (h : 0 < i) : parent i < i := by
  unfold parent
  omega

section Order

variable {κ : Type} [LinearOrder κ] {k k' : Nat → κ} {n r h c : Nat}

/-- The heap order on the first `n` positions, as far as it concerns parents from `r` on. -/
def OrderedFrom (k : Nat → κ) (n r : Nat) : Prop :=
  ∀ i, 0 < i → i < n → r ≤ parent i → k (parent i) ≤ k i

/-- The heap order. -/
def Ordered (k : Nat → κ) (n : Nat) : Prop := ∀ i, 0 < i → i < n → k (parent i) ≤ k i

/-- A heap that is ordered from the root on is ordered. -/
theorem ordered_of_orderedFrom (h : OrderedFrom k n 0) : Ordered k n :=
  fun i hi hn => h i hi hn (Nat.zero_le _)

/-- The first position has a least key. -/
theorem Ordered.root_le (h : Ordered k n) (i : Nat) (hi : i < n) : k 0 ≤ k i := by
  induction i using Nat.strongRecOn with
  | ind i ih =>
    rcases Nat.eq_zero_or_pos i with rfl | hpos
    · exact le_refl _
    · have hp := parent_lt hpos
      exact le_trans (ih _ hp (by omega)) (h i hpos hi)

/-- Positions whose parent lies behind the array do not matter. -/
theorem orderedFrom_of_half (hr : (n - 1) / 2 < r) : OrderedFrom k n r := by
  intro i hi hn hle
  unfold parent at hle
  omega

/-- A heap whose first key was replaced, and whose last positions may have been cut off. -/
theorem Ordered.replace_root {m : Nat} (h : Ordered k n) (hm : m ≤ n)
    (hk : ∀ i, 0 < i → i < m → k' i = k i) : OrderedFrom k' m 1 := by
  intro i hi him hp
  have hlt := parent_lt hi
  rw [hk i hi him, hk (parent i) (by omega) (by omega)]
  exact h i hi (by omega)

/-- `k'` is `k` with the keys at two positions exchanged. -/
structure Swapped (k k' : Nat → κ) (a b : Nat) : Prop where
  left : k' a = k b
  right : k' b = k a
  other : ∀ i, i ≠ a → i ≠ b → k' i = k i

/-! ## Sifting up -/

/-- A heap except that the key at the hole `h` may be less than its parent's. -/
structure UpHole (k : Nat → κ) (n h : Nat) : Prop where
  edge : ∀ i, 0 < i → i < n → i ≠ h → k (parent i) ≤ k i
  skip : ∀ i, 0 < i → i < n → parent i = h → 0 < h → k (parent h) ≤ k i

/-- A new last position. -/
theorem upHole_push (h : Ordered k n) (hk : ∀ i, i < n → k' i = k i) : UpHole k' (n + 1) n := by
  constructor
  · intro i hi hin hne
    have hp := parent_lt hi
    rw [hk i (by omega), hk (parent i) (by omega)]
    exact h i hi (by omega)
  · intro i hi hin hp _
    have := parent_lt hi
    omega

/-- A hole at the root can be filled. -/
theorem UpHole.at_root (h : UpHole k n 0) : Ordered k n :=
  fun i hi hn => h.edge i hi hn (by omega)

/-- A hole whose parent is not greater can be filled. -/
theorem UpHole.stop (hu : UpHole k n h) (hle : k (parent h) ≤ k h) : Ordered k n := by
  intro i hi hn
  by_cases hih : i = h
  · rw [hih]
    exact hle
  · exact hu.edge i hi hn hih

/-- The hole moves to its parent, whose key is greater. -/
theorem UpHole.move (hu : UpHole k n h) (hpos : 0 < h) (hn : h < n) (hlt : k h < k (parent h))
    (hs : Swapped k k' h (parent h)) : UpHole k' n (parent h) := by
  have hph := parent_lt hpos
  constructor
  · intro i hi hin hne
    by_cases hih : i = h
    · rw [hih, hs.left, hs.right]
      exact le_of_lt hlt
    · rw [hs.other i hih hne]
      have hpi := parent_lt hi
      by_cases hpih : parent i = h
      · rw [hpih, hs.left]
        exact hu.skip i hi hin hpih hpos
      · by_cases hpp : parent i = parent h
        · rw [hpp, hs.right]
          have hsib := hu.edge i hi hin hih
          rw [hpp] at hsib
          exact le_trans (le_of_lt hlt) hsib
        · rw [hs.other _ hpih hpp]
          exact hu.edge i hi hin hih
  · intro i hi hin hpi hpos'
    have hgp := parent_lt hpos'
    have hgrand := hu.edge (parent h) hpos' (by omega) (by omega)
    rw [hs.other (parent (parent h)) (by omega) (by omega)]
    by_cases hih : i = h
    · rw [hih, hs.left]
      exact hgrand
    · have hne : i ≠ parent h := by
        intro h0
        have := parent_lt hi
        omega
      rw [hs.other i hih hne]
      have hsib := hu.edge i hi hin hih
      rw [hpi] at hsib
      exact le_trans hgrand hsib

/-! ## Subtrees -/

/-- The positions of the subtree with the given root. -/
inductive Below (r : Nat) : Nat → Prop where
  | root : Below r r
  | child {i : Nat} : 0 < i → Below r (parent i) → Below r i

/-- What is below a node does not come before it. -/
theorem Below.le {r i : Nat} (h : Below r i) : r ≤ i := by
  induction h with
  | root => exact Nat.le_refl _
  | child hi _ ih => exact Nat.le_trans ih (Nat.le_of_lt (parent_lt hi))

/-- A position under the root lies in the subtree of one of the children of the root. -/
theorem Below.cases_child {r i : Nat} (h : Below r i) :
    i = r ∨ ∃ c, 0 < c ∧ parent c = r ∧ Below c i := by
  induction h with
  | root => exact Or.inl rfl
  | @child i hi _ ih =>
    rcases ih with hp | ⟨c, hc, hpc, hbelow⟩
    · exact Or.inr ⟨i, hi, hp, .root⟩
    · exact Or.inr ⟨c, hc, hpc, .child hi hbelow⟩

/-- The heap order on the first `n` positions, as far as it concerns parents in `D`. -/
def OrderedOn (D : Nat → Prop) (k : Nat → κ) (n : Nat) : Prop :=
  ∀ i, 0 < i → i < n → D (parent i) → k (parent i) ≤ k i

/-- The root of an ordered subtree has a least key of the subtree. -/
theorem OrderedOn.root_le {r i : Nat} (h : OrderedOn (Below r) k n) (hi : Below r i) (hin : i < n) :
    k r ≤ k i := by
  induction hi with
  | root => exact le_refl _
  | child hpos hbelow ih =>
    have hp := parent_lt hpos
    exact le_trans (ih (by omega)) (h _ hpos hin hbelow)

/-! ## Sifting down -/

/-- A heap on the parents in `D`, except that the key at the hole `h` may be greater than its
children's. -/
structure DownHoleOn (D : Nat → Prop) (k : Nat → κ) (n h : Nat) : Prop where
  edge : ∀ i, 0 < i → i < n → D (parent i) → parent i ≠ h → k (parent i) ≤ k i
  skip : ∀ i, 0 < i → i < n → parent i = h → 0 < h → D (parent h) → k (parent h) ≤ k i

/-- A heap from `r` on, except that the key at the hole `h` may be greater than its
children's. -/
structure DownHole (k : Nat → κ) (n r h : Nat) : Prop where
  edge : ∀ i, 0 < i → i < n → r ≤ parent i → parent i ≠ h → k (parent i) ≤ k i
  skip : ∀ i, 0 < i → i < n → parent i = h → 0 < h → r ≤ parent h → k (parent h) ≤ k i

/-- A hole below the root of a subtree, with the set of its nodes. -/
theorem DownHole.downHoleOn (hd : DownHole k n r h) : DownHoleOn (r ≤ ·) k n h := ⟨hd.edge, hd.skip⟩

/-- A new hole at the root of a subtree. -/
theorem downHole_start (h : OrderedFrom k n (r + 1)) : DownHole k n r r := by
  constructor
  · intro i hi hin hr hne
    exact h i hi hin (by omega)
  · intro i hi hin hp hpos hr
    have := parent_lt hpos
    omega

/-- A hole at the root of a subtree whose children are the roots of ordered subtrees. -/
theorem downHoleOn_start {r : Nat}
    (h : ∀ c, 0 < c → parent c = r → c < n → OrderedOn (Below c) k n) :
    DownHoleOn (Below r) k n r := by
  constructor
  · intro i hi hin hbelow hne
    rcases hbelow.cases_child with heq | ⟨c, hc, hpc, hbelow⟩
    · exact absurd heq hne
    · have hle := hbelow.le
      have hlt := parent_lt hi
      exact h c hc hpc (by omega) i hi hin hbelow
  · intro i _ _ _ hpos hbelow
    have hle := hbelow.le
    have hlt := parent_lt hpos
    omega

variable {D : Nat → Prop}

/-- The hole stays where no child has a lesser key. -/
theorem DownHoleOn.stop (hd : DownHoleOn D k n h)
    (hle : ∀ i, 0 < i → i < n → parent i = h → k h ≤ k i) : OrderedOn D k n := by
  intro i hi hin hr
  by_cases hp : parent i = h
  · rw [hp]
    exact hle i hi hin hp
  · exact hd.edge i hi hin hr hp

/-- The hole moves to a child whose key is less than the hole's and no greater than that of
the other child. -/
theorem DownHoleOn.move (hd : DownHoleOn D k n h) (hD : D c) (hc : 0 < c) (hcn : c < n)
    (hpc : parent c = h) (hlt : k c < k h) (hleast : ∀ i, 0 < i → i < n → parent i = h → k c ≤ k i)
    (hs : Swapped k k' h c) : DownHoleOn D k' n c := by
  have hhc : h < c := by
    rw [← hpc]
    exact parent_lt hc
  constructor
  · intro i hi hin hr hne
    have hpi := parent_lt hi
    by_cases hph : parent i = h
    · rw [hph, hs.left]
      by_cases hic : i = c
      · rw [hic, hs.right]
        exact le_of_lt hlt
      · rw [hs.other i (by omega) hic]
        exact hleast i hi hin hph
    · rw [hs.other (parent i) hph hne]
      by_cases hih : i = h
      · rw [hih, hs.left]
        rw [hih] at hr hi
        exact hd.skip c hc hcn hpc hi hr
      · have hic : i ≠ c := by
          intro h0
          rw [h0] at hph
          exact hph hpc
        rw [hs.other i hih hic]
        exact hd.edge i hi hin hr hph
  · intro i hi hin hpi _ _
    have hlt' := parent_lt hi
    rw [hpc, hs.left, hs.other i (by omega) (by omega)]
    have hedge := hd.edge i hi hin (by rwa [hpi]) (by omega)
    rwa [hpi] at hedge

end Order

/-! ## Lists with a hole -/

section Lists

variable {α κ : Type} [Inhabited κ] {key : α → κ} {l : List α} {x y : α} {h c : Nat}

/-- The keys at the positions of a list. -/
def keys (key : α → κ) (l : List α) (i : Nat) : κ := ((l[i]?).map key).getD default

/-- The key of an element that is there. -/
theorem keys_of_getElem? {i : Nat} (hi : l[i]? = some x) : keys key l i = key x := by
  rw [keys, hi]
  rfl

/-- The key of the element that is set. -/
theorem keys_set_self (hh : h < l.length) : keys key (l.set h x) h = key x :=
  keys_of_getElem? (List.getElem?_set_self hh)

/-- The keys of the other elements are left alone. -/
theorem keys_set_ne {i : Nat} (hne : i ≠ h) : keys key (l.set h x) i = keys key l i := by
  rw [keys, keys, List.getElem?_set_ne (Ne.symm hne)]

/-- Moving the hole of a filled list from `h` to `c` exchanges two keys. -/
theorem swapped_keys (key : α → κ) (x : α) (hy : l[c]? = some y) (hh : h < l.length) (hne : h ≠ c) :
    Swapped (keys key (l.set h x)) (keys key ((l.set h y).set c x)) h c := by
  have hc : c < l.length := (List.getElem?_eq_some_iff.mp hy).1
  constructor
  · rw [keys_set_ne hne, keys_set_self hh, keys_set_ne hne.symm, keys_of_getElem? hy]
  · rw [keys_set_self (by rwa [List.length_set]), keys_set_self hh]
  · intro i hih hic
    rw [keys_set_ne hic, keys_set_ne hih, keys_set_ne hih]

/-- Moving the hole of a filled list permutes it. -/
theorem fill_move_perm (hy : l[c]? = some y) (hh : h < l.length) (hne : h ≠ c) :
    ((l.set h y).set c x).Perm (l.set h x) := by
  obtain ⟨hc, rfl⟩ := List.getElem?_eq_some_iff.mp hy
  have hh' : h < (l.set h x).length := by rwa [List.length_set]
  have hc' : c < (l.set h x).length := by rwa [List.length_set]
  have hperm := List.set_set_perm hh' hc'
  rw [List.getElem_set_self, List.getElem_set_ne hne, List.set_set] at hperm
  exact hperm

end Lists

end Lib.HoleHeap
