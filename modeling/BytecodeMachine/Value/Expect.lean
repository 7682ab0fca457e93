import BytecodeMachine.Action
/-!
# Checked conversions of words

A word is read as a number or as a reference only after a check of its tag.
-/
namespace BytecodeMachine

namespace Value

def expectScalar : Value → Answer Int32
  | .scalar number => .ok number
  | other => .error (.expectedScalar other.kind)

def expectRef : Value → Answer Ref
  | .ref object => .ok object
  | other => .error (.expectedReference other.kind)

end Value

/-- A size as a signed 32-bit number, if it is one. -/
def int32OfNat (size : Nat) : Answer Int32 :=
  if size < 2147483648 then .ok (Int32.ofNat size) else .error (.number .tooLarge)

end BytecodeMachine
