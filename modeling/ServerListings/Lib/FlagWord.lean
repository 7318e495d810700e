/-!
# Words of flags

A flag is a word with one bit. A test of a word against a flag reads this bit, and a word that
has nothing outside a mask has only bits of the mask.
-/

set_option autoImplicit false

namespace Lib.FlagWord

variable {n k : Nat} {word mask : BitVec n}

/-- A single bit is not zero. -/
theorem twoPow_ne_zero (hk : k < n) : BitVec.twoPow n k ≠ 0#n := by
  intro hzero
  have hbit : (BitVec.twoPow n k).getLsbD k = (0#n).getLsbD k := by rw [hzero]
  rw [BitVec.getLsbD_twoPow, BitVec.getLsbD_zero] at hbit
  simp [hk] at hbit

/-- A word tested against a flag. -/
theorem and_flag (word : BitVec n) (hk : k < n) :
    (word &&& BitVec.twoPow n k != 0#n) = word.getLsbD k := by
  rw [BitVec.and_twoPow]
  cases hbit : word.getLsbD k with
  | false => simp
  | true => simpa using twoPow_ne_zero hk

/-- Every bit of the word is one of the mask. -/
theorem getLsbD_of_masked (h : word &&& ~~~mask = 0#n) (hbit : word.getLsbD k = true) :
    mask.getLsbD k = true := by
  have hnone : (word &&& ~~~mask).getLsbD k = false := by rw [h, BitVec.getLsbD_zero]
  have hk : k < n := BitVec.lt_of_getLsbD hbit
  rw [BitVec.getLsbD_and, hbit, BitVec.getLsbD_not] at hnone
  simpa [hk] using hnone

end Lib.FlagWord
