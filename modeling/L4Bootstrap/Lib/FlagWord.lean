import Mathlib.Data.Nat.Bitwise
import Mathlib.Tactic.Common

/-!
# Words of an aligned address and flags

A word that holds an address in its upper bits and flags in the bits below `k`.
Both parts are read back by masks.
-/

namespace FlagWord

set_option autoImplicit false

/-- The mask of the bits from `low` up to `high`. -/
def fieldMask (low high : Nat) : Nat := (2 ^ (high - low) - 1) <<< low

theorem test_bit_of_dvd {address k i : Nat} (aligned : 2 ^ k ∣ address) (below : i < k) :
    address.testBit i = false := by
  obtain ⟨q, rfl⟩ := aligned
  rw [Nat.testBit_two_pow_mul]
  simp
  omega

/-- The field of the address reads back the address. -/
theorem or_and_field {address flags low high : Nat} (aligned : 2 ^ low ∣ address)
    (fits : address < 2 ^ high) (small : flags < 2 ^ low) :
    (address ||| flags) &&& fieldMask low high = address := by
  apply Nat.eq_of_testBit_eq
  intro i
  rw [Nat.testBit_and, Nat.testBit_or, fieldMask, Nat.testBit_shiftLeft, Nat.testBit_two_pow_sub_one]
  by_cases isLow : i < low
  · rw [test_bit_of_dvd aligned isLow]
    simp
    omega
  · have noFlag : flags.testBit i = false :=
      Nat.testBit_lt_two_pow (small.trans_le (Nat.pow_le_pow_right (by decide) (by omega)))
    rw [noFlag, Bool.or_false]
    by_cases isHigh : high ≤ i
    · have zero : address.testBit i = false :=
        Nat.testBit_lt_two_pow (fits.trans_le (Nat.pow_le_pow_right (by decide) isHigh))
      rw [zero, Bool.false_and]
    · have inField : decide (i ≥ low) = true ∧ decide (i - low < high - low) = true := by
        simp
        omega
      rw [inField.1, inField.2, Bool.and_true, Bool.and_true]

/-- A mask of flags sees only the flags. -/
theorem or_and_flags {address flags mask k : Nat} (aligned : 2 ^ k ∣ address)
    (small : mask < 2 ^ k) : (address ||| flags) &&& mask = flags &&& mask := by
  apply Nat.eq_of_testBit_eq
  intro i
  rw [Nat.testBit_and, Nat.testBit_and, Nat.testBit_or]
  by_cases isLow : i < k
  · rw [test_bit_of_dvd aligned isLow, Bool.false_or]
  · have noMask : mask.testBit i = false :=
      Nat.testBit_lt_two_pow (small.trans_le (Nat.pow_le_pow_right (by decide) (by omega)))
    rw [noMask, Bool.and_false, Bool.and_false]

end FlagWord
