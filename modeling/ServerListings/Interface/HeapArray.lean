import ServerListings.Lib.HoleHeap
import ServerListings.Model.TimeHeap

/-!
# The loops of the time heap on an array of timers

The used part of the array holds `l.map some` for a list `l` of timers, and `rest` is behind
it. Each loop keeps the used part filled with timers; with the moved timer put into the hole
it is a permutation of what it was, and it ends in the order the loop is for.
-/

set_option autoImplicit false

namespace ServerListings.Interface

open Lib.CMem Lib.HoleHeap ServerListings.Model

/-- The time a timer is set to. -/
def expireOf (s : Store) (p : Ptr) : Int := (s.timers p).expire

/-- A pointer that is not null refers to its object. -/
theorem deref_some (s : Store) (p : Ptr) : s.deref (some p) = .ok (s.timers p) := rfl

section Used

variable {l : List Ptr} {rest : List (Option Ptr)} {i : Nat} {p : Ptr}

/-- An element of the used part is read. -/
theorem load_used (rest : List (Option Ptr)) (h : l[i]? = some p) :
    load (l.map some ++ rest) i = .ok (some p) := by
  have hi : i < (l.map some).length := by
    rw [List.length_map]
    exact (List.getElem?_eq_some_iff.mp h).1
  rw [load, List.getElem?_append_left hi, List.getElem?_map, h]
  rfl

/-- An element of the used part is set. -/
theorem set_used (h : i < l.length) (p : Ptr) :
    (l.map some ++ rest).set i (some p) = (l.set i p).map some ++ rest := by
  rw [List.set_append_left _ _ (by rwa [List.length_map]), List.map_set]

end Used

/-- The array whose hole holds `x` has the used part `l` with `x` at the hole. What the array
has in its hole, and `l` there, is left open. -/
def Fills (array : List (Option Ptr)) (hole : Nat) (x : Ptr) (l : List Ptr)
    (rest : List (Option Ptr)) : Prop :=
  array.set hole (some x) = (l.set hole x).map some ++ rest

section Fills

variable {array : List (Option Ptr)} {hole i : Nat} {x y : Ptr} {l : List Ptr}
  {rest : List (Option Ptr)}

/-- A place in the used part is a hole. -/
theorem fills_used (h : hole < l.length) : Fills (l.map some ++ rest) hole x l rest :=
  set_used h x

/-- A hole leaves the length of the array alone. -/
theorem Fills.length_eq (h : Fills array hole x l rest) : array.length = l.length + rest.length := by
  have hlen := congrArg List.length h
  rwa [List.length_set, List.length_append, List.length_map, List.length_set] at hlen

/-- The elements beside the hole are read. -/
theorem Fills.load (h : Fills array hole x l rest) (hi : l[i]? = some y) (hne : i ≠ hole) :
    load array i = .ok (some y) := by
  have hset : (l.set hole x)[i]? = some y := by rwa [List.getElem?_set_ne hne.symm]
  have hload := load_used rest hset
  rw [← h, Lib.CMem.load, List.getElem?_set_ne hne.symm] at hload
  exact hload

/-- The move of the hole to `i`, whose timer goes to the old place of the hole. -/
theorem Fills.move (h : Fills array hole x l rest) (hlt : hole < l.length) (hi : i < l.length) :
    ∃ array', store array hole (some y) = .ok array' ∧ Fills array' i x (l.set hole y) rest := by
  refine ⟨_, store_of_lt _ (by rw [h.length_eq]; omega), ?_⟩
  have hagain : array.set hole (some y) = ((l.set hole y).map some ++ rest) := by
    have hset := congrArg (fun a => a.set hole (some y)) h
    simp only [List.set_set] at hset
    rw [hset, set_used (by rwa [List.length_set]), List.set_set]
  rw [Fills, hagain, set_used (by rwa [List.length_set])]

/-- The end of a loop: the moved timer is stored into the hole. -/
theorem Fills.finish (h : Fills array hole x l rest) (hlt : hole < l.length) :
    store array hole (some x) = .ok ((l.set hole x).map some ++ rest) := by
  rw [store_of_lt _ (by rw [h.length_eq]; omega), h]

end Fills

section Loops

variable {s : Store} {rest : List (Option Ptr)} {l : List Ptr} {hole : Nat} {x : Ptr}

/-- The keys that the heap order compares, with `x` in the hole. -/
abbrev filled (s : Store) (l : List Ptr) (hole : Nat) (x : Ptr) : Nat → Int :=
  keys (expireOf s) (l.set hole x)

/-! ## Moving down -/

/-- The children of a node are the two behind it. -/
theorem parent_eq_iff {i h : Nat} (hi : 0 < i) :
    parent i = h ↔ i = h * 2 + 1 ∨ i = h * 2 + 1 + 1 := by
  unfold parent
  omega

/-- What holds of the timers at the two positions below the hole. -/
theorem forall_child {P : Ptr → Prop} (hleft : ∀ z, l[hole * 2 + 1]? = some z → P z)
    (hright : ∀ z, l[hole * 2 + 1 + 1]? = some z → P z) :
    ∀ i z, 0 < i → parent i = hole → l[i]? = some z → P z := by
  intro i z hi hp hz
  rcases (parent_eq_iff hi).mp hp with rfl | rfl
  · exact hleft z hz
  · exact hright z hz

/-- The child that `percolate_down` compares with has the least key of the children. -/
theorem lesserChild_spec (s : Store) {array : List (Option Ptr)} (hf : Fills array hole x l rest)
    (hl : 2 * hole + 1 < l.length) :
    ∃ c y, lesserChild s l.length array (hole * 2 + 1) = .ok c ∧ l[c]? = some y ∧
      0 < c ∧ parent c = hole ∧
      ∀ i z, 0 < i → parent i = hole → l[i]? = some z → expireOf s y ≤ expireOf s z := by
  have hchild : hole * 2 + 1 < l.length := by omega
  have hleft := List.getElem?_eq_getElem hchild
  have hpleft : parent (hole * 2 + 1) = hole := (parent_eq_iff (Nat.succ_pos _)).mpr (Or.inl rfl)
  have hpright : parent (hole * 2 + 1 + 1) = hole := (parent_eq_iff (Nat.succ_pos _)).mpr (Or.inr rfl)
  unfold lesserChild
  by_cases hright : hole * 2 + 1 < l.length - 1
  · have hchild' : hole * 2 + 1 + 1 < l.length := by omega
    have hright' := List.getElem?_eq_getElem hchild'
    rw [if_pos hright, hf.load hright' (by omega), hf.load hleft (by omega)]
    simp only [ok_bind, deref_some]
    by_cases hlt : expireOf s l[hole * 2 + 1 + 1] < expireOf s l[hole * 2 + 1]
    · refine ⟨hole * 2 + 1 + 1, _, congrArg Except.ok (if_pos hlt), hright', Nat.succ_pos _, hpright,
        forall_child ?_ ?_⟩
      · intro z hz
        obtain rfl := Option.some.inj (hleft.symm.trans hz)
        exact le_of_lt hlt
      · intro z hz
        obtain rfl := Option.some.inj (hright'.symm.trans hz)
        exact le_refl _
    · refine ⟨hole * 2 + 1, _, congrArg Except.ok (if_neg hlt), hleft, Nat.succ_pos _, hpleft,
        forall_child ?_ ?_⟩
      · intro z hz
        obtain rfl := Option.some.inj (hleft.symm.trans hz)
        exact le_refl _
      · intro z hz
        obtain rfl := Option.some.inj (hright'.symm.trans hz)
        exact not_lt.mp hlt
  · rw [if_neg hright]
    refine ⟨hole * 2 + 1, _, rfl, hleft, Nat.succ_pos _, hpleft, forall_child ?_ ?_⟩
    · intro z hz
      obtain rfl := Option.some.inj (hleft.symm.trans hz)
      exact le_refl _
    · intro z hz
      have hin := (List.getElem?_eq_some_iff.mp hz).1
      omega

/-- The loop of `percolate_down`. The hole moves to greater positions, so the length of the
used part bounds the iterations; the induction is on those that are left. It stays in any set
of positions that has the children of its members, and the positions outside keep their
timers. -/
theorem percolateLoop_spec {D : Nat → Prop} (hclosed : ∀ i, 0 < i → D (parent i) → D i) (fuel : Nat) :
    ∀ (array : List (Option Ptr)) (l : List Ptr) (hole : Nat),
    Fills array hole x l rest → hole < l.length → D hole → l.length ≤ hole + fuel →
    DownHoleOn D (filled s l hole x) l.length hole →
    ∃ array' l' hole', percolateLoop s l.length (some x) fuel array hole = .ok (array', hole') ∧
      Fills array' hole' x l' rest ∧ hole' < l'.length ∧ (l'.set hole' x).Perm (l.set hole x) ∧
      OrderedOn D (filled s l' hole' x) l'.length ∧
      ∀ i, ¬ D i → (l'.set hole' x)[i]? = (l.set hole x)[i]? := by
  induction fuel with
  | zero =>
    intro array l hole _ hlt _ hfuel _
    omega
  | succ fuel ih =>
    intro array l hole hf hlt hr hfuel hd
    unfold percolateLoop
    by_cases hchild : 2 * hole + 1 < l.length
    · rw [if_pos (by omega)]
      obtain ⟨c, y, hc, hy, hcpos, hpc, hleast⟩ := lesserChild_spec s hf hchild
      have hcl : c < l.length := (List.getElem?_eq_some_iff.mp hy).1
      have hhc : hole < c := by
        rw [← hpc]
        exact parent_lt hcpos
      have hDc : D c := hclosed c hcpos (by rwa [hpc])
      simp only [hc, hf.load hy (by omega), deref_some, ok_bind]
      have hkc : filled s l hole x c = expireOf s y := by
        rw [filled, keys_set_ne (by omega), keys_of_getElem? hy]
      have hkh : filled s l hole x hole = expireOf s x := keys_set_self hlt
      have hkey : ∀ i, 0 < i → i < l.length → parent i = hole → filled s l hole x c ≤ filled s l hole x i := by
        intro i hi hin hp
        have hne : i ≠ hole := by
          have := parent_lt hi
          omega
        rw [hkc, filled, keys_set_ne hne, keys_of_getElem? (List.getElem?_eq_getElem hin)]
        exact hleast i _ hi hp (List.getElem?_eq_getElem hin)
      by_cases hmove : (s.timers y).expire < (s.timers x).expire
      · obtain ⟨array', hstore, hf'⟩ := hf.move hlt hcl (y := y)
        rw [if_pos hmove, hstore, ok_bind]
        have hswap := swapped_keys (expireOf s) x hy hlt (by omega : hole ≠ c)
        have hd' := hd.move hDc hcpos hcl hpc (by rw [hkc, hkh]; exact hmove) hkey hswap
        have hlen : (l.set hole y).length = l.length := List.length_set
        rw [← hlen] at hd' hcl hfuel
        obtain ⟨array'', l', hole', hloop, hf'', hlt', hperm, hord, hframe⟩ :=
          ih array' (l.set hole y) c hf' hcl hDc (by omega) hd'
        rw [hlen] at hloop
        refine ⟨array'', l', hole', hloop, hf'', hlt',
          hperm.trans (fill_move_perm hy hlt (by omega)), hord, ?_⟩
        intro i hi
        have hic : i ≠ c := fun h => hi (h ▸ hDc)
        have hih : i ≠ hole := fun h => hi (h ▸ hr)
        rw [hframe i hi, List.getElem?_set_ne hic.symm, List.getElem?_set_ne hih.symm,
          List.getElem?_set_ne hih.symm]
      · rw [if_neg hmove]
        refine ⟨array, l, hole, rfl, hf, hlt, .refl _, hd.stop ?_, fun i _ => rfl⟩
        intro i hi hin hp
        refine le_trans ?_ (hkey i hi hin hp)
        rw [hkh, hkc]
        exact not_lt.mp hmove
    · rw [if_neg (by omega)]
      refine ⟨array, l, hole, rfl, hf, hlt, .refl _, hd.stop ?_, fun i _ => rfl⟩
      intro i hi hin hp
      rcases (parent_eq_iff hi).mp hp with rfl | rfl <;> omega

/-! ## Moving up -/

/-- The loop of `add_timer`. The hole moves to lesser positions, which bounds the
iterations. -/
theorem addLoop_spec (fuel : Nat) : ∀ (array : List (Option Ptr)) (l : List Ptr) (hole : Nat),
    Fills array hole x l rest → hole < l.length → hole < fuel →
    UpHole (filled s l hole x) l.length hole →
    ∃ array' l' hole', addLoop s (some x) fuel array hole = .ok (array', hole') ∧
      Fills array' hole' x l' rest ∧ hole' < l'.length ∧ (l'.set hole' x).Perm (l.set hole x) ∧
      Ordered (filled s l' hole' x) l'.length := by
  induction fuel with
  | zero =>
    intro array l hole _ _ hfuel
    omega
  | succ fuel ih =>
    intro array l hole hf hlt hfuel hu
    unfold addLoop
    by_cases hpos : hole > 0
    · have hp := parent_lt hpos
      have hpl : parent hole < l.length := by omega
      have hy := List.getElem?_eq_getElem hpl
      have hkp : filled s l hole x (parent hole) = expireOf s l[parent hole] := by
        rw [filled, keys_set_ne (by omega), keys_of_getElem? hy]
      have hkh : filled s l hole x hole = expireOf s x := keys_set_self hlt
      rw [if_pos hpos]
      simp only [show (hole - 1) / 2 = parent hole from rfl, hf.load hy (by omega), deref_some,
        ok_bind]
      by_cases hstop : (s.timers l[parent hole]).expire ≤ (s.timers x).expire
      · rw [if_pos hstop]
        exact ⟨array, l, hole, rfl, hf, hlt, .refl _, hu.stop (by rw [hkp, hkh]; exact hstop)⟩
      · obtain ⟨array', hstore, hf'⟩ :=
          hf.move hlt hpl (y := l[parent hole])
        rw [if_neg hstop, hstore, ok_bind]
        have hswap := swapped_keys (expireOf s) x hy hlt (by omega : hole ≠ parent hole)
        have hu' := hu.move hpos hlt (by rw [hkp, hkh]; exact not_le.mp hstop) hswap
        have hlen : (l.set hole l[parent hole]).length = l.length := List.length_set
        rw [← hlen] at hu' hpl
        obtain ⟨array'', l', hole', hloop, hf'', hlt', hperm, hord⟩ :=
          ih array' _ _ hf' hpl (by omega) hu'
        exact ⟨array'', l', hole', hloop, hf'', hlt', hperm.trans (fill_move_perm hy hlt (by omega)), hord⟩
    · obtain rfl : hole = 0 := by omega
      rw [if_neg hpos]
      exact ⟨array, l, 0, rfl, hf, hlt, .refl _, hu.at_root⟩

end Loops

end ServerListings.Interface
