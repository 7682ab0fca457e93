import BytecodeMachine.Proofs.Size
import BytecodeMachine.Value
import Mathlib.Data.Int.ModEq
/-!
# Numbers in words

A word keeps the low 31 bits of a number. Of all integers that differ by multiples of 2 ^ 31
exactly one fits in a word, and boxing a number and unboxing it gives the one for that number.
So nothing is lost on the way that arithmetic modulo 2 ^ 31 could tell, although the numbers in
between have 32 bits.
-/
namespace BytecodeMachine

namespace Word

/-- A number that survives being stored in a word. -/
def Fits (number : Int32) : Prop := least ≤ number ∧ number ≤ greatest

instance (number : Int32) : Decidable (Fits number) := inferInstanceAs (Decidable (_ ∧ _))

/-- The number that fits and differs from an integer by a multiple of 2 ^ 31. -/
def reduced (whole : Int) : Int32 := Int32.ofInt (whole.bmod 2147483648)

/-- The two constants of the bound, as integers. -/
theorem fits_iff {number : Int32} :
    Fits number ↔ -1073741824 ≤ number.toInt ∧ number.toInt ≤ 1073741823 := by
  have low : least.toInt = -1073741824 := by decide
  have high : greatest.toInt = 1073741823 := by decide
  rw [Fits, Int32.le_iff_toInt_le, Int32.le_iff_toInt_le, low, high]

/-- A size up to the greatest word is a word. -/
theorem fits_ofNat {size : Nat} (small : size ≤ 1073741823) : Fits (Int32.ofNat size) := by
  rw [fits_iff, toInt_ofNat (by omega)]
  omega

/-- The balanced remainder of any integer by 2^31 is within the words, so nothing is lost when it
is made a number of 32 bits. -/
theorem toInt_reduced (whole : Int) : (reduced whole).toInt = whole.bmod 2147483648 := by
  have low : -1073741824 ≤ whole.bmod 2147483648 := Int.le_bmod (by decide)
  have high : whole.bmod 2147483648 < 1073741824 := Int.bmod_lt (by decide)
  exact Int32.toInt_ofInt_of_le (by omega) (by omega)

/-- There is exactly one such number. -/
theorem eq_reduced_iff {number : Int32} {whole : Int} :
    number = reduced whole ↔ Fits number ∧ number.toInt ≡ whole [ZMOD 2 ^ 31] := by
  rw [← Int32.toInt_inj, toInt_reduced, fits_iff, Int.ModEq, Int.bmod_def]
  omega

/-- An integer that fits is kept as it is. -/
theorem toInt_reduced_of_fits {whole : Int} (low : -1073741824 ≤ whole)
    (high : whole ≤ 1073741823) : (reduced whole).toInt = whole := by
  rw [toInt_reduced, Int.bmod_eq_of_le (by omega) (by omega)]

/-- Shifting a stored form halves it, downwards. -/
theorem toInt_unbox (word : Int32) : (unbox word).toInt = word.toInt / 2 := by
  have shifted : (unbox word).toBitVec = word.toBitVec.sshiftRight 1 := by
    rw [unbox, Int32.toBitVec_shiftRight]
    rfl
  rw [← Int32.toInt_toBitVec, shifted, BitVec.toInt_sshiftRight, Int32.toInt_toBitVec,
    Int.shiftRight_eq_div_pow]
  rfl

/-- Whatever the stored form, the number it stands for fits. -/
theorem fits_unbox (word : Int32) : Fits (unbox word) := by
  have low := word.le_toInt
  have high := word.toInt_lt
  rw [fits_iff, toInt_unbox]
  omega

/-- The lowest bit is free, so setting it is adding one. A number that has been shifted to the left
has a zero there, and no carry arises. -/
theorem box_eq (number : Int32) : box number = 2 * number + 1 := by
  apply Int32.toBitVec_inj.mp
  have even : (number.toBitVec <<< 1) &&& 1#32 = 0#32 := by
    apply BitVec.eq_of_getLsbD_eq
    intro index _
    cases index <;> simp
  rw [box, Int32.toBitVec_or, Int32.toBitVec_shiftLeft]
  change number.toBitVec <<< 1 ||| 1#32 = 2#32 * number.toBitVec + 1#32
  rw [← BitVec.add_eq_or_of_and_eq_zero _ _ even]
  congr 1

/-- The highest bit is lost in the stored form, and the next one tells the sign from there on. -/
theorem unbox_box_eq (number : Int32) : unbox (box number) = reduced number.toInt := by
  have two : (2 : Int32).toInt = 2 := by decide
  have one : (1 : Int32).toInt = 1 := by decide
  have stored : (box number).toInt = (2 * number.toInt + 1).bmod 4294967296 := by
    rw [box_eq, Int32.toInt_add, Int32.toInt_mul, two, one, Int.bmod_add_bmod]
  rw [eq_reduced_iff, Int.ModEq, fits_iff, toInt_unbox, stored, Int.bmod_def]
  omega

/-- A number that fits is kept as it is. -/
theorem unbox_box {number : Int32} (fits : Fits number) : unbox (box number) = number := by
  rw [unbox_box_eq]
  exact (eq_reduced_iff.mpr ⟨fits, Int.ModEq.refl _⟩).symm

end Word

/-- A word keeps a number up to multiples of 2 ^ 31. -/
theorem Value.ofInt_eq (number : Int32) : ofInt number = .scalar (Word.reduced number.toInt) := by
  rw [ofInt, Word.unbox_box_eq]

end BytecodeMachine
