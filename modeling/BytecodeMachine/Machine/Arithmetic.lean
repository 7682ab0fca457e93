import BytecodeMachine.Value.Expect
/-!
# Binary operators

Arithmetic is that of 32-bit words, and its results wrap to the 31 bits of a number.
Division truncates toward zero. Comparisons answer one or zero, and the logical
operators look at both operands. Equality is identity of words, and the only
operator that takes references and places.
-/
namespace BytecodeMachine

namespace Operator

/-- The answer for two numbers. -/
def onNumbers (operator : Operator) (a b : Int32) : Answer Value :=
  match operator with
  | .add => .ok (.ofInt (a + b))
  | .sub => .ok (.ofInt (a - b))
  | .mul => .ok (.ofInt (a * b))
  | .div => if b = 0 then .error (.machine .divisionByZero) else .ok (.ofInt (a / b))
  | .mod => if b = 0 then .error (.machine .divisionByZero) else .ok (.ofInt (a % b))
  | .lt => .ok (.ofBool (a < b))
  | .le => .ok (.ofBool (a ≤ b))
  | .gt => .ok (.ofBool (b < a))
  | .ge => .ok (.ofBool (b ≤ a))
  | .eq => .ok (.ofBool (a = b))
  | .ne => .ok (.ofBool (a ≠ b))
  | .and => .ok (.ofBool (a ≠ 0 ∧ b ≠ 0))
  | .or => .ok (.ofBool (a ≠ 0 ∨ b ≠ 0))

/-- The answer for two words, the left operand first. The left one is checked first. -/
def apply (operator : Operator) (x y : Value) : Answer Value :=
  match operator with
  | .eq => .ok (.ofBool (x = y))
  | .ne => .ok (.ofBool (x ≠ y))
  | _ => do
    let a ← Answer.during (.leftOperand operator) x.expectScalar
    let b ← Answer.during (.rightOperand operator) y.expectScalar
    operator.onNumbers a b

end Operator

end BytecodeMachine
