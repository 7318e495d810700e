import Mathlib.Data.Finset.Card
import Mathlib.Data.Int.Interval

/-!
# The least free number

Numbers are handed out from 0 on: one that is given back is the first to be given out again.
The next number is below a limit exactly if fewer numbers below the limit are in use than the
limit allows.
-/

set_option autoImplicit false

namespace Lib.LeastFree

variable {used : Int → Prop} {k k' limit : Int} {F : Finset Int}

/-- `k` is the least number that is not in use. -/
structure IsLeastFree (used : Int → Prop) (k : Int) : Prop where
  nonneg : 0 ≤ k
  free : ¬ used k
  below : ∀ x, 0 ≤ x → x < k → used x

/-- The least free number is below every free one. -/
theorem IsLeastFree.le (h : IsLeastFree used k) (hnonneg : 0 ≤ k') (hfree : ¬ used k') : k ≤ k' := by
  by_contra hlt
  exact hfree (h.below k' hnonneg (not_le.mp hlt))

/-- `F` are the numbers below the limit that are in use. -/
theorem IsLeastFree.lt_iff (h : IsLeastFree used k) (hlimit : 0 ≤ limit)
    (hF : ∀ x, x ∈ F ↔ (0 ≤ x ∧ x < limit) ∧ used x) : k < limit ↔ (F.card : Int) < limit := by
  have hsub : F ⊆ Finset.Ico 0 limit := fun x hx => Finset.mem_Ico.mpr ((hF x).mp hx).1
  have hcard : ((Finset.Ico 0 limit).card : Int) = limit := by
    rw [Int.card_Ico, sub_zero, Int.toNat_of_nonneg hlimit]
  constructor
  · intro hlt
    have hk : k ∈ Finset.Ico 0 limit := Finset.mem_Ico.mpr ⟨h.nonneg, hlt⟩
    have hmore : F ⊂ Finset.Ico 0 limit := by
      refine Finset.ssubset_iff_subset_ne.mpr ⟨hsub, ?_⟩
      rintro rfl
      exact h.free ((hF k).mp hk).2
    rw [← hcard]
    exact Int.ofNat_lt.mpr (Finset.card_lt_card hmore)
  · intro hlt
    have hne : F.card < (Finset.Ico 0 limit).card := by omega
    obtain ⟨x, hx, hnot⟩ := Finset.exists_mem_notMem_of_card_lt_card hne
    have hrange := Finset.mem_Ico.mp hx
    have hfree : ¬ used x := fun hused => hnot ((hF x).mpr ⟨hrange, hused⟩)
    exact (h.le hrange.1 hfree).trans_lt hrange.2

end Lib.LeastFree
