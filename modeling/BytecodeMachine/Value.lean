import BytecodeMachine.Text.Decimal
/-!
# Machine words

A word of the operand stack, of the globals area or of a heap object is a number,
a reference to a heap object, or the place of a variable. Numbers have 31 bits:
on a machine of 32-bit words the number `n` is stored as `2 * n + 1`, so that the
lowest bit tells numbers from references. Here a word is tagged by its
constructor, and the stored form only decides how a number wraps.

This module holds the words and the texts that show them. Checked conversions,
which can fail, are in `BytecodeMachine.Value.Expect`.
-/
namespace BytecodeMachine

namespace Word

/-- The least number that survives being stored in a word. -/
def least : Int32 := -1073741824

/-- The greatest number that survives being stored in a word. -/
def greatest : Int32 := 1073741823

/-- The stored form of a number. The highest bit is lost. -/
def box (number : Int32) : Int32 := (number <<< 1) ||| 1

/-- The number that a stored form stands for. The shift keeps the sign. -/
def unbox (word : Int32) : Int32 := word >>> 1

/-- A stored form stands for a number exactly when its lowest bit is set. -/
def isBoxed (word : Int32) : Bool := word &&& 1 == 1

end Word

/-- A handle to an object of the heap: its position in the order of creation. -/
structure Ref where
  index : Nat
deriving DecidableEq, Repr, Inhabited

/-- Where a variable lives. -/
inductive Slot
  /-- A word of the globals area. -/
  | global (index : Nat)
  /-- A word of the stack, counted from the lowest index of the storage. -/
  | stack (index : Nat)
  /-- A raw field of an object. The captures of a closure start at one. -/
  | field (object : Ref) (index : Nat)
deriving DecidableEq, Repr

/-- A place is shown by an ampersand and what it is in. -/
def Slot.text : Slot → String
  | .global index => s!"&G({index})"
  | .stack index => s!"&S({index})"
  | .field object index => s!"&@{object.index}[{index}]"

/-- One word of the stack, of the globals area or of a heap object. -/
inductive Value
  | scalar (number : Int32)
  | ref (object : Ref)
  | slot (place : Slot)
deriving DecidableEq, Repr

namespace Value

/-- The number zero fills fresh storage and is what writing a number answers. -/
def zero : Value := .scalar 0

instance : Inhabited Value := ⟨zero⟩

/-- A number as a word. What does not fit in 31 bits wraps as storing it would. -/
def ofInt (number : Int32) : Value := .scalar (Word.unbox (Word.box number))

/-- Truth values are the numbers one and zero. -/
def ofBool (flag : Bool) : Value := .scalar (if flag then 1 else 0)

def isScalar : Value → Bool
  | .scalar _ => true
  | _ => false

def isRef : Value → Bool
  | .ref _ => true
  | _ => false

/-- A number is shown in decimal, a reference by its index. -/
def text : Value → String
  | .scalar number => Decimal.text number.toInt
  | .ref object => s!"@{object.index}"
  | .slot place => place.text

/-- What sort of word this is, as far as error messages tell. -/
inductive Kind
  | scalar
  | reference
  | location
deriving DecidableEq, Repr

def Kind.name : Kind → String
  | .scalar => "scalar"
  | .reference => "reference"
  | .location => "location"

def kind : Value → Kind
  | .scalar _ => .scalar
  | .ref _ => .reference
  | .slot _ => .location

end Value

end BytecodeMachine
