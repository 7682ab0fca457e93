import BytecodeMachine.Trace.Event
import BytecodeMachine.Value.Expect
/-!
# Hosts

A machine handles words only. Whatever needs to know how objects are laid out, and
whatever reads or writes, is asked of its host. Some requests can be answered
through others, and a host that does not say otherwise answers them so.
-/
namespace BytecodeMachine

/-- What a machine asks of the host whose state is `σ`. -/
class Host (σ : Type) where
  /-- Gets ready before the first instruction, and says what it announces. -/
  prepare : Action σ (List Event) := pure []
  /-- Makes a string. -/
  newString : Array UInt8 → Action σ Ref
  /-- Makes an array of these elements, in order. -/
  newArray : Array Value → Action σ Ref
  /-- Makes an aggregate of a tag and these fields. -/
  newAggregate : Int32 → Array Value → Action σ Ref
  /-- Makes a closure of an entry and what it has captured. Field 0 is the entry. -/
  newClosure : Nat → Array Value → Action σ Ref
  /-- A raw field of an object. -/
  field : Ref → Nat → σ → Answer Value
  setField : Ref → Nat → Value → Action σ Unit
  /-- The offset at which the code of a closure starts. -/
  entry : Ref → σ → Answer Nat := fun object host => do
    let number ← (← field object 0 host).expectScalar
    if number < 0 then throw (.heap (.negativeEntry number))
    return number.toInt.toNat
  /-- An element of a string, an array or an aggregate. -/
  element : Value → Int32 → σ → Answer Value
  setElement : Value → Int32 → Value → Action σ Unit
  /-- The tag of a constructor's name. -/
  tag : Array UInt8 → σ → Answer Int32
  sameString : Value → Value → σ → Answer Bool
  isString : Value → σ → Bool
  isArray : Value → σ → Bool
  isAggregate : Value → σ → Bool
  isClosure : Value → σ → Bool
  isReference : Value → σ → Bool := fun value _ => value.isRef
  isNumber : Value → σ → Bool := fun value _ => value.isScalar
  /-- A word is an aggregate with this tag and number of fields. -/
  matchesAggregate : Value → Int32 → Nat → σ → Bool
  /-- A word is an array of this length. -/
  matchesArray : Value → Nat → σ → Bool
  readNumber : Action σ Int32
  writeNumber : Int32 → Action σ Unit
  /-- The length of a string, an array or an aggregate. -/
  length : Value → σ → Answer Int32
  /-- Makes a string of a word's printed form. -/
  print : Value → Action σ Ref

end BytecodeMachine
