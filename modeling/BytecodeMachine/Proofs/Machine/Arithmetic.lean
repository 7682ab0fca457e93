import BytecodeMachine.Machine.Arithmetic
import BytecodeMachine.Proofs.Machine.Linkage
import BytecodeMachine.Proofs.Word
/-!
# What operators compute

Operators compute with the integers that numbers stand for, and keep of the result what fits in
a word. On the way a result wraps twice, to 32 bits and then to 31, but 2 ^ 31 divides 2 ^ 32, so
that what is kept is what differs from the exact result by a multiple of 2 ^ 31. Quotients are
truncated, and all quotients and remainders of numbers that fit do fit, except for the quotient
of the least number by minus one.

Words that are not numbers can only be compared.
-/
namespace BytecodeMachine

/-! ### Quotients -/

/-- Dividing does not go away from zero, and only the least number has an opposite that does not
fit. -/
theorem tdiv_fits {a b : Int} (low : -1073741824 ≤ a) (high : a ≤ 1073741823)
    (exact : ¬ (a = -1073741824 ∧ b = -1)) :
    -1073741824 ≤ a.tdiv b ∧ a.tdiv b ≤ 1073741823 := by
  obtain rfl | rfl | rfl | large : b = 0 ∨ b = 1 ∨ b = -1 ∨ 2 ≤ b.natAbs := by omega
  · rw [Int.tdiv_zero]
    omega
  · rw [Int.tdiv_one]
    omega
  · rw [Int.tdiv_neg, Int.tdiv_one]
    omega
  · -- all other divisors halve at least, which leaves room for either sign
    have size : (a.tdiv b).natAbs = a.natAbs / b.natAbs := Int.natAbs_tdiv a b
    have half : a.natAbs / b.natAbs ≤ a.natAbs / 2 := Nat.div_le_div_left large (by decide)
    omega

/-- What is left is less than the divisor. -/
theorem sub_mul_tdiv_fits (a : Int) {b : Int} (nonzero : b ≠ 0) (low : -1073741824 ≤ b)
    (high : b ≤ 1073741823) :
    -1073741824 ≤ a - b * a.tdiv b ∧ a - b * a.tdiv b ≤ 1073741823 := by
  have size := Int.natAbs_tmod a b
  have less : a.natAbs % b.natAbs < b.natAbs := Nat.mod_lt _ (Int.natAbs_pos.mpr nonzero)
  rw [← Int.tmod_def]
  omega

namespace Word

/-- Wrapping to 32 bits first makes no difference. -/
theorem reduced_bmod (whole : Int) : reduced (whole.bmod (2 ^ 32)) = reduced whole := by
  rw [reduced, Int.bmod_bmod_of_dvd (by decide), reduced]

/-- The representative of an integer is congruent to it. -/
theorem toInt_reduced_modEq (whole : Int) : (reduced whole).toInt ≡ whole [ZMOD 2 ^ 31] :=
  (eq_reduced_iff.mp rfl).2

end Word

namespace Operator

/-- What an operator makes of two integers, if it makes something of them. Tests give one or
zero. -/
def onIntegers (operator : Operator) (a b : Int) : Option Int :=
  match operator with
  | .add => some (a + b)
  | .sub => some (a - b)
  | .mul => some (a * b)
  | .div => if b = 0 then none else some (a.tdiv b)
  | .mod => if b = 0 then none else some (a - b * a.tdiv b)
  | .lt => some (if a < b then 1 else 0)
  | .le => some (if a ≤ b then 1 else 0)
  | .gt => some (if b < a then 1 else 0)
  | .ge => some (if b ≤ a then 1 else 0)
  | .eq => some (if a = b then 1 else 0)
  | .ne => some (if a ≠ b then 1 else 0)
  | .and => some (if a ≠ 0 ∧ b ≠ 0 then 1 else 0)
  | .or => some (if a ≠ 0 ∨ b ≠ 0 then 1 else 0)

/-- An integer as a word, if there is one. There is none for a division by zero. -/
def kept : Option Int → Answer Value
  | some whole => .ok (.scalar (Word.reduced whole))
  | none => .error (.machine .divisionByZero)

variable {operator : Operator} {a b : Int32} {x y : Value}

/-- Wrapping to 32 bits first does not matter when a number is then reduced to 31: the larger
modulus is a multiple of the smaller one. -/
theorem ofInt_of_wrapped {number : Int32} {whole : Int}
    (wrapped : number.toInt = whole.bmod (2 ^ 32)) :
    Value.ofInt number = .scalar (Word.reduced whole) := by
  rw [Value.ofInt_eq, wrapped, Word.reduced_bmod]

/-- Truth values are the numbers one and zero, and conditions that hold together have the same
one. -/
theorem ofBool_of_iff {holds holds' : Prop} [Decidable holds] [Decidable holds']
    (same : holds ↔ holds') :
    Value.ofBool holds = .scalar (Word.reduced (if holds' then 1 else 0)) := by
  by_cases flag : holds
  · rw [if_pos (same.mp flag), decide_eq_true flag]
    decide
  · rw [if_neg (fun flag' => flag (same.mpr flag')), decide_eq_false flag]
    decide

/-- Only zero is zero as an integer. -/
theorem toInt_eq_zero_iff : b.toInt = 0 ↔ b = 0 := by
  rw [← Int32.toInt_inj, Int32.toInt_zero]

/-- A divisor other than zero is other than zero as an integer. -/
theorem toInt_ne_zero (nonzero : b ≠ 0) : b.toInt ≠ 0 :=
  fun zero => nonzero (toInt_eq_zero_iff.mp zero)

/-- Divisors are looked at before they are used, in numbers as in integers. -/
theorem unlessZero_eq {number : Int32} {whole : Int}
    (same : Value.ofInt number = .scalar (Word.reduced whole)) (b : Int32) :
    (if b = 0 then .error (.machine .divisionByZero) else .ok (.ofInt number) : Answer Value) =
      kept (if b.toInt = 0 then none else some whole) := by
  by_cases zero : b = 0
  · rw [if_pos zero, if_pos (toInt_eq_zero_iff.mpr zero), kept]
  · rw [if_neg zero, if_neg (toInt_ne_zero zero), kept, same]

/-- Of two numbers an operator makes what it makes of the integers, as far as it fits. Proof: by
the operator. The arithmetic ones wrap to 32 bits first, which is forgotten when the result is
reduced; the remainder is written with the quotient; comparisons are those of the integers. -/
theorem onNumbers_eq (operator : Operator) (a b : Int32) :
    operator.onNumbers a b = kept (operator.onIntegers a.toInt b.toInt) := by
  have nonzero (c : Int32) : c ≠ 0 ↔ c.toInt ≠ 0 := not_congr toInt_eq_zero_iff.symm
  cases operator with
  | add => exact congrArg Except.ok (ofInt_of_wrapped (Int32.toInt_add a b))
  | sub => exact congrArg Except.ok (ofInt_of_wrapped (Int32.toInt_sub a b))
  | mul => exact congrArg Except.ok (ofInt_of_wrapped (Int32.toInt_mul a b))
  | div => exact unlessZero_eq (ofInt_of_wrapped (Int32.toInt_div a b)) b
  | mod =>
    have same : Value.ofInt (a % b) =
        .scalar (Word.reduced (a.toInt - b.toInt * a.toInt.tdiv b.toInt)) := by
      rw [Value.ofInt_eq, Int32.toInt_mod, Int.tmod_def]
    exact unlessZero_eq same b
  | lt => exact congrArg Except.ok (ofBool_of_iff Int32.lt_iff_toInt_lt)
  | le => exact congrArg Except.ok (ofBool_of_iff Int32.le_iff_toInt_le)
  | gt => exact congrArg Except.ok (ofBool_of_iff Int32.lt_iff_toInt_lt)
  | ge => exact congrArg Except.ok (ofBool_of_iff Int32.le_iff_toInt_le)
  | eq => exact congrArg Except.ok (ofBool_of_iff Int32.toInt_inj.symm)
  | ne => exact congrArg Except.ok (ofBool_of_iff (not_congr Int32.toInt_inj.symm))
  | and => exact congrArg Except.ok (ofBool_of_iff (and_congr (nonzero a) (nonzero b)))
  | or => exact congrArg Except.ok (ofBool_of_iff (or_congr (nonzero a) (nonzero b)))

/-- Two numbers are the same word if they are the same number. -/
theorem apply_scalars (operator : Operator) (a b : Int32) :
    operator.apply (.scalar a) (.scalar b) = kept (operator.onIntegers a.toInt b.toInt) := by
  rw [← onNumbers_eq]
  cases operator with
  | eq => simp only [apply, onNumbers, Value.scalar.injEq]
  | ne => simp only [apply, onNumbers, Value.scalar.injEq, ne_eq]
  | _ => rfl

/-- Only a division by zero gives nothing. -/
theorem onIntegers_eq_none_iff {operator : Operator} {a b : Int} :
    operator.onIntegers a b = none ↔ (operator = .div ∨ operator = .mod) ∧ b = 0 := by
  cases operator <;> simp [onIntegers]

/-- On two scalars the only fault is a division by zero, and both kinds of division have it. -/
theorem apply_scalars_eq_error_iff :
    (∃ cause, operator.apply (.scalar a) (.scalar b) = .error cause) ↔
      (operator = .div ∨ operator = .mod) ∧ b = 0 := by
  rw [apply_scalars, ← toInt_eq_zero_iff, ← onIntegers_eq_none_iff]
  cases operator.onIntegers a.toInt b.toInt <;> simp [kept]

/-- Where the operation is defined on integers, the result is the representative of the exact
one. -/
theorem apply_scalars_eq_ok {whole : Int}
    (gives : operator.onIntegers a.toInt b.toInt = some whole) :
    operator.apply (.scalar a) (.scalar b) = .ok (.scalar (Word.reduced whole)) := by
  rw [apply_scalars, gives, kept]

/-- The least number divided by minus one is the only quotient that does not fit, and it is the
least number again. -/
theorem toInt_quotient (fits : Word.Fits a) (b : Int32) :
    (Word.reduced (a.toInt.tdiv b.toInt)).toInt =
      if a = Word.least ∧ b = -1 then Word.least.toInt else a.toInt.tdiv b.toInt := by
  obtain ⟨low, high⟩ := Word.fits_iff.mp fits
  by_cases overflows : a = Word.least ∧ b = -1
  · rw [if_pos overflows, overflows.1, overflows.2]
    decide
  · have exact : ¬ (a.toInt = -1073741824 ∧ b.toInt = -1) := by
      rintro ⟨least, one⟩
      exact overflows ⟨Int32.toInt_inj.mp least, Int32.toInt_inj.mp one⟩
    obtain ⟨low', high'⟩ := tdiv_fits low high exact
    rw [if_neg overflows, Word.toInt_reduced_of_fits low' high']

/-- The remainder needs no reduction. It is smaller than a divisor that is a word, so it is a word
already, although the quotient may not be one. -/
theorem toInt_remainder (nonzero : b ≠ 0) (fits : Word.Fits b) (a : Int32) :
    (Word.reduced (a.toInt - b.toInt * a.toInt.tdiv b.toInt)).toInt =
      a.toInt - b.toInt * a.toInt.tdiv b.toInt := by
  obtain ⟨low, high⟩ := Word.fits_iff.mp fits
  obtain ⟨low', high'⟩ := sub_mul_tdiv_fits a.toInt (toInt_ne_zero nonzero) low high
  exact Word.toInt_reduced_of_fits low' high'

/-- Quotient, divisor and remainder give the dividend back, also where the quotient does not fit:
what it is short of is a multiple of 2 ^ 31. -/
theorem dividend_eq (fits : Word.Fits a) (b : Int32) :
    Word.reduced ((Word.reduced ((Word.reduced (a.toInt.tdiv b.toInt)).toInt * b.toInt)).toInt +
      (Word.reduced (a.toInt - b.toInt * a.toInt.tdiv b.toInt)).toInt) = a := by
  refine (Word.eq_reduced_iff.mpr ⟨fits, Int.ModEq.symm ?_⟩).symm
  calc (Word.reduced ((Word.reduced (a.toInt.tdiv b.toInt)).toInt * b.toInt)).toInt +
        (Word.reduced (a.toInt - b.toInt * a.toInt.tdiv b.toInt)).toInt
    _ ≡ (Word.reduced (a.toInt.tdiv b.toInt)).toInt * b.toInt +
        (a.toInt - b.toInt * a.toInt.tdiv b.toInt) [ZMOD 2 ^ 31] :=
      (Word.toInt_reduced_modEq _).add (Word.toInt_reduced_modEq _)
    _ ≡ a.toInt.tdiv b.toInt * b.toInt +
        (a.toInt - b.toInt * a.toInt.tdiv b.toInt) [ZMOD 2 ^ 31] :=
      ((Word.toInt_reduced_modEq _).mul_right _).add_right _
    _ = a.toInt := by rw [Int.mul_comm b.toInt, add_sub_cancel]

/-- Operators that do not compare look for numbers on both sides. If there were a result both
checks would have been passed, and then both words are numbers. -/
theorem apply_eq_error_of_not_scalars (others : ¬ (x.isScalar ∧ y.isScalar))
    (computes : operator ≠ .eq ∧ operator ≠ .ne) :
    ∃ cause, operator.apply x y = .error cause := by
  rw [Answer.exists_error_iff]
  rintro ⟨value, applied⟩
  unfold apply at applied
  split at applied
  · exact computes.1 rfl
  · exact computes.2 rfl
  · simp only [Answer.bind_eq_ok_iff, Machine.expectScalar_eq_ok_iff] at applied
    obtain ⟨a, rfl, b, rfl, _⟩ := applied
    exact others ⟨rfl, rfl⟩

/-- Operators compute modulo 2 ^ 31. Of the integers that differ by multiples of 2 ^ 31 one fits in
a word. That one is kept of every number, and of what every operator makes of two integers, so a
result that fits is exact. Only a division by zero fails. Otherwise division gives the truncated
quotient and what it leaves, which give the dividend back. What is not two numbers can only be
told apart. -/
theorem operators_compute_modulo :
    (∀ (whole : Int) (number : Int32), number = Word.reduced whole ↔
      Word.Fits number ∧ number.toInt ≡ whole [ZMOD 2 ^ 31]) ∧
    (∀ whole : Int, Word.least.toInt ≤ whole → whole ≤ Word.greatest.toInt →
      (Word.reduced whole).toInt = whole) ∧
    (∀ number : Int32, Value.ofInt number = .scalar (Word.reduced number.toInt)) ∧
    (∀ a b : Int32, Word.Fits a → Word.Fits b →
      (∀ operator : Operator,
        operator.apply (.scalar a) (.scalar b) = kept (operator.onIntegers a.toInt b.toInt) ∧
        ((∃ cause, operator.apply (.scalar a) (.scalar b) = .error cause) ↔
          (operator = .div ∨ operator = .mod) ∧ b = 0)) ∧
      (b ≠ 0 → ∃ quotient remainder product : Int32,
        Operator.div.apply (.scalar a) (.scalar b) = .ok (.scalar quotient) ∧
        quotient.toInt =
          (if a = Word.least ∧ b = -1 then Word.least.toInt else a.toInt.tdiv b.toInt) ∧
        Operator.mod.apply (.scalar a) (.scalar b) = .ok (.scalar remainder) ∧
        remainder.toInt = a.toInt - b.toInt * a.toInt.tdiv b.toInt ∧
        Operator.mul.apply (.scalar quotient) (.scalar b) = .ok (.scalar product) ∧
        Operator.add.apply (.scalar product) (.scalar remainder) = .ok (.scalar a))) ∧
    ∀ x y : Value, ¬ (x.isScalar ∧ y.isScalar) →
      Operator.eq.apply x y = .ok (.ofBool (x = y)) ∧
      Operator.ne.apply x y = .ok (.ofBool (x ≠ y)) ∧
      ∀ operator : Operator, operator ≠ .eq ∧ operator ≠ .ne →
        ∃ cause, operator.apply x y = .error cause := by
  refine ⟨fun _ _ => Word.eq_reduced_iff, fun _ => Word.toInt_reduced_of_fits, Value.ofInt_eq,
    ?_, ?_⟩
  · intro a b fitsA fitsB
    refine ⟨fun operator => ⟨apply_scalars operator a b, apply_scalars_eq_error_iff⟩, ?_⟩
    intro nonzero
    have divides {whole : Int} : (if b.toInt = 0 then none else some whole) = some whole :=
      if_neg (toInt_ne_zero nonzero)
    refine ⟨_, _, _, apply_scalars_eq_ok divides, toInt_quotient fitsA b,
      apply_scalars_eq_ok divides, toInt_remainder nonzero fitsB a, apply_scalars_eq_ok rfl, ?_⟩
    rw [apply_scalars_eq_ok rfl, dividend_eq fitsA b]
  · intro x y others
    exact ⟨rfl, rfl, fun operator computes => apply_eq_error_of_not_scalars others computes⟩

/-- The least number divided by minus one wraps to itself and leaves nothing, and what is negative
is divided toward zero. -/
theorem operators_compute_modulo_negative :
    Operator.div.apply (.scalar Word.least) (.scalar (-1)) = .ok (.scalar Word.least) ∧
    Operator.mod.apply (.scalar Word.least) (.scalar (-1)) = .ok (.scalar 0) ∧
    Operator.div.apply (.scalar (-7)) (.scalar 2) = .ok (.scalar (-3)) ∧
    Operator.mod.apply (.scalar (-7)) (.scalar 2) = .ok (.scalar (-1)) ∧
    ∃ cause, Operator.add.apply (.ref ⟨0⟩) (.scalar 1) = .error cause := by
  obtain ⟨_, _, _, numbers, others⟩ := operators_compute_modulo
  obtain ⟨quotient, remainder, _, div, wraps, mod, leaves, _⟩ :=
    (numbers Word.least (-1) (by decide) (by decide)).2 (by decide)
  obtain ⟨quotient', remainder', _, div', truncates, mod', leaves', _⟩ :=
    (numbers (-7) 2 (by decide) (by decide)).2 (by decide)
  obtain rfl : quotient = Word.least := Int32.toInt_inj.mp wraps
  obtain rfl : remainder = 0 := Int32.toInt_inj.mp leaves
  obtain rfl : quotient' = -3 := Int32.toInt_inj.mp truncates
  obtain rfl : remainder' = -1 := Int32.toInt_inj.mp leaves'
  exact ⟨div, mod, div', mod', (others (.ref ⟨0⟩) (.scalar 1) (by decide)).2.2 .add (by decide)⟩

end Operator

end BytecodeMachine
