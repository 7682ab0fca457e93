import BytecodeMachine.Value.Expect
/-!
# Sizes as signed numbers

Sizes, offsets and counts are kept in files, in code and on the stack as signed 32-bit
numbers. Below the bound of these numbers nothing is lost on the way there and back.
-/
namespace BytecodeMachine

/-- A size becomes a number if it is below 2^31, and is refused otherwise. -/
theorem int32OfNat_eq_ok_iff {size : Nat} {number : Int32} :
    int32OfNat size = .ok number ↔ size < 2147483648 ∧ number = Int32.ofNat size := by
  unfold int32OfNat
  split
  · next fits => simp [fits, eq_comm]
  · next large => simp [large]

/-- A size that fits is read back from its number. -/
theorem toInt_ofNat {size : Nat} (fits : size < 2147483648) :
    (Int32.ofNat size).toInt = (size : Int) :=
  Int32.toInt_ofNat_of_lt (by simpa using fits)

/-- A size that fits is had back from its number. -/
theorem toNat_ofNat {size : Nat} (fits : size < 2147483648) :
    (Int32.ofNat size).toInt.toNat = size := by
  rw [toInt_ofNat fits, Int.toNat_natCast]

/-- A size that fits does not turn negative. -/
theorem ofNat_nonneg {size : Nat} (fits : size < 2147483648) : 0 ≤ Int32.ofNat size := by
  rw [Int32.le_iff_toInt_le, toInt_ofNat fits]
  exact Int.natCast_nonneg size

/-- Negative numbers count for zero, and the others are below 2^31. -/
theorem toNat_lt (number : Int32) : number.toInt.toNat < 2147483648 := by
  have bound := number.toInt_lt
  omega

/-- A number that is not negative is given back by its size. -/
theorem ofNat_toNat {number : Int32} (positive : 0 ≤ number) :
    Int32.ofNat number.toInt.toNat = number := by
  have bound : 0 ≤ number.toInt := Int32.le_iff_toInt_le.mp positive
  apply Int32.toInt_inj.mp
  rw [toInt_ofNat (toNat_lt number), Int.toNat_of_nonneg bound]

end BytecodeMachine
