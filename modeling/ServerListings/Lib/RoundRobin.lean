import Mathlib.Data.Finset.Card
import Mathlib.Data.Fintype.Basic
import Mathlib.Tactic.Cases

/-!
# Round robin

The members of a ring are served in turn: the next one is the first live member from the place
behind the last one that was served. While the live members stay the same, no one of them is
served again before all others have been (`Served.turn`), so as many members as are live are
served one after the other without a repetition (`Served.nodup`).
-/

set_option autoImplicit false

namespace Lib.RoundRobin

variable {n : Nat} {start i j c c' : Fin n} {is is' : List (Fin n)} {live : Fin n → Prop}

/-- The member that is `k` places behind. -/
def behind (start : Fin n) (k : Nat) : Fin n :=
  ⟨(start + k) % n, Nat.mod_lt _ (Nat.zero_lt_of_lt start.isLt)⟩

/-- Nothing further on is the start. -/
@[simp] theorem behind_zero (start : Fin n) : behind start 0 = start :=
  Fin.ext (Nat.mod_eq_of_lt start.isLt)

/-- Steps further on add up. -/
theorem behind_behind (start : Fin n) (k m : Nat) : behind (behind start k) m = behind start (k + m) := by
  apply Fin.ext
  show ((start + k) % n + m) % n = (start + (k + m)) % n
  rw [Nat.mod_add_mod, Nat.add_assoc]

/-- All members are met within `n` places. -/
theorem exists_behind (start i : Fin n) : ∃ k < n, behind start k = i := by
  have hi := i.isLt
  have hs := start.isLt
  by_cases hle : start.val ≤ i.val
  · refine ⟨i - start, by omega, Fin.ext ?_⟩
    show (start + (i - start)) % n = i.val
    rw [show start.val + (i.val - start.val) = i.val by omega, Nat.mod_eq_of_lt hi]
  · refine ⟨i + n - start, by omega, Fin.ext ?_⟩
    show (start + (i + n - start)) % n = i.val
    rw [show start.val + (i.val + n - start.val) = i.val + n by omega, Nat.add_mod_right,
      Nat.mod_eq_of_lt hi]

/-- The way back to a place goes around the ring. -/
theorem le_of_behind_eq {k : Nat} (hk : 0 < k) (h : behind start k = start) : n ≤ k := by
  have hval : (start + k) % n = start.val := congrArg Fin.val h
  have hs := start.isLt
  by_contra hne
  by_cases hlt : start.val + k < n
  · rw [Nat.mod_eq_of_lt hlt] at hval
    omega
  · rw [Nat.mod_eq_sub_mod (by omega), Nat.mod_eq_of_lt (by omega)] at hval
    omega

/-- `i` is the first live member from `start` on. -/
def FirstFrom (live : Fin n → Prop) (start i : Fin n) : Prop :=
  ∃ k < n, behind start k = i ∧ live i ∧ ∀ m < k, ¬ live (behind start m)

/-- The first live one is live. -/
theorem FirstFrom.is_live (h : FirstFrom live start i) : live i := h.choose_spec.2.2.1

/-- The members that are served one after the other, from a place to the place behind the last
one. -/
inductive Served (live : Fin n → Prop) : Fin n → List (Fin n) → Fin n → Prop where
  | nil (c : Fin n) : Served live c [] c
  | cons {c i c' : Fin n} {is : List (Fin n)} :
      FirstFrom live c i → Served live (behind i 1) is c' → Served live c (i :: is) c'

/-- Two servings in a row are one. -/
theorem Served.append {c'' : Fin n} (h : Served live c is c') (h' : Served live c' is' c'') :
    Served live c (is ++ is') c'' := by
  induction h with
  | nil c => exact h'
  | cons hfirst _ ih => exact .cons hfirst (ih h')

/-- A serving can be cut anywhere. -/
theorem Served.split (h : Served live c (is ++ is') c') :
    ∃ c₁, Served live c is c₁ ∧ Served live c₁ is' c' := by
  induction is generalizing c with
  | nil => exact ⟨c, .nil c, h⟩
  | cons i is ih =>
    cases h with
    | cons hfirst hrest =>
      obtain ⟨c₁, hleft, hright⟩ := ih hrest
      exact ⟨c₁, .cons hfirst hleft, hright⟩

/-- No live member is passed over. -/
theorem Served.covers (h : Served live c is c') :
    ∃ d, c' = behind c d ∧ ∀ m < d, live (behind c m) → behind c m ∈ is := by
  induction h with
  | nil c => exact ⟨0, (behind_zero c).symm, fun m hm => absurd hm (Nat.not_lt_zero m)⟩
  | @cons c i c' is hfirst _ ih =>
    obtain ⟨k, -, rfl, -, hbefore⟩ := hfirst
    obtain ⟨d, rfl, hmem⟩ := ih
    refine ⟨k + 1 + d, by rw [behind_behind c k 1, behind_behind], ?_⟩
    intro m hm hlive
    rcases Nat.lt_trichotomy m k with hlt | rfl | hgt
    · exact absurd hlive (hbefore m hlt)
    · exact List.mem_cons_self
    · obtain ⟨e, rfl⟩ : ∃ e, m = k + 1 + e := ⟨m - (k + 1), by omega⟩
      have hsame : behind (behind (behind c k) 1) e = behind c (k + 1 + e) := by
        rw [behind_behind c k 1, behind_behind]
      rw [← hsame] at hlive ⊢
      exact List.mem_cons_of_mem _ (hmem e (by omega) hlive)

/-- Before a member is served again, it is the turn of all others. -/
theorem Served.turn (h : Served live (behind i 1) is c) (hagain : FirstFrom live c i) (hj : live j) :
    j = i ∨ j ∈ is := by
  obtain ⟨d, rfl, hmem⟩ := h.covers
  obtain ⟨k, -, hback, -, hbefore⟩ := hagain
  obtain ⟨m, hm, rfl⟩ := exists_behind (behind i 1) j
  have hround : n ≤ 1 + d + k := by
    have hagain' : behind i (1 + d + k) = i := by
      rw [← behind_behind, ← behind_behind, hback]
    exact le_of_behind_eq (by omega) hagain'
  by_cases hlt : m < d
  · exact Or.inr (hmem m hlt hj)
  · obtain ⟨e, rfl⟩ : ∃ e, m = d + e := ⟨m - d, by omega⟩
    rw [← behind_behind] at hj ⊢
    have hek : ¬ e < k := fun hek => hbefore e hek hj
    obtain rfl : e = k := by omega
    exact Or.inl hback

/-- As many members as are live are served without a repetition. -/
theorem Served.nodup [DecidablePred live] (h : Served live c is c')
    (hlen : is.length ≤ (Finset.univ.filter live).card) : is.Nodup := by
  induction h with
  | nil c => exact List.nodup_nil
  | @cons c i c' is hfirst hrest ih =>
    rw [List.length_cons] at hlen
    refine List.nodup_cons.mpr ⟨fun hi => ?_, ih (by omega)⟩
    obtain ⟨a, b, rfl⟩ := List.append_of_mem hi
    obtain ⟨c₁, ha, hb⟩ := hrest.split
    cases hb with
    | cons hagain _ =>
      have hsub : Finset.univ.filter live ⊆ (i :: a).toFinset := by
        intro j hj
        rw [List.mem_toFinset, List.mem_cons]
        exact ha.turn hagain (Finset.mem_filter.mp hj).2
      have hcard := (Finset.card_le_card hsub).trans (List.toFinset_card_le (i :: a))
      rw [List.length_cons] at hcard
      rw [List.length_append, List.length_cons] at hlen
      omega

/-- The same for every part of what is served. -/
theorem Served.nodup_infix [DecidablePred live] {w : List (Fin n)} (h : Served live c is c')
    (hw : w <:+: is) (hlen : w.length ≤ (Finset.univ.filter live).card) : w.Nodup := by
  obtain ⟨a, b, rfl⟩ := hw
  obtain ⟨c₁, hleft, -⟩ := h.split
  obtain ⟨c₂, -, hmid⟩ := hleft.split
  exact hmid.nodup hlen

end Lib.RoundRobin
