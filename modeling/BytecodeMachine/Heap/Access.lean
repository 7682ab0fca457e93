import BytecodeMachine.Heap
/-!
# Access to objects

Objects are read and changed in two ways. Elements are what a program sees: those of
strings, arrays and aggregates, by a number that is checked against the length.
Fields are raw: the elements, and for closures the entry at zero and the captures
from one on. A string has bytes for elements; a number stored into it keeps its low
eight bits. A closure has no elements, and its entry cannot be replaced.

Nothing changes an object's kind, length, tag or entry, and a request that is
refused changes nothing at all.
-/
namespace BytecodeMachine

/-- The low eight bits of a number. -/
def lowByte (number : Int32) : UInt8 := number.toUInt32.toUInt8

/-- A byte as a word. -/
def Value.ofByte (b : UInt8) : Value := .ofInt (Int32.ofNat b.toNat)

namespace Object

/-- The word at a position of an object. Captures are counted from one. -/
def word? : Object → Nat → Option Value
  | .string bytes, index => bytes[index]?.map .ofByte
  | .array elements, index => elements[index]?
  | .aggregate _ fields, index => fields[index]?
  | .closure _ _, 0 => none
  | .closure _ captured, index + 1 => captured[index]?

/-- The object with a word replaced. Positions outside the object change nothing. -/
def put (index : Nat) (value : Value) : Object → Object
  | .string bytes =>
    match value with
    | .scalar number => .string (bytes.setIfInBounds index (lowByte number))
    | _ => .string bytes
  | .array elements => .array (elements.setIfInBounds index value)
  | .aggregate tag fields => .aggregate tag (fields.setIfInBounds index value)
  | .closure entry captured =>
    match index with
    | 0 => .closure entry captured
    | index + 1 => .closure entry (captured.setIfInBounds index value)

/-- Whether a value may be put into an object: into a string only numbers. -/
def accepts : Object → Value → Answer Unit
  | .string _, value =>
    match value.expectScalar with
    | .ok _ => .ok ()
    | .error cause => .error cause
  | _, _ => .ok ()

/-- An element's position, checked against the length. -/
def elementIndex (object : Object) (index : Int32) : Answer Nat :=
  if 0 ≤ index ∧ index.toInt.toNat < object.length then .ok index.toInt.toNat
  else .error (.heap (.indexOutside index object.kind object.length))

/-- An element's position in an object that has elements. -/
def elementPosition (object : Object) (index : Int32) : Answer Nat :=
  match object.elementIndex index with
  | .error cause => .error cause
  | .ok position =>
    if object.kind = .closure then .error (.heap .elementOfClosure) else .ok position

/-- Whether a raw field can take a value. The field is looked for before the value is
looked at. -/
def checkField (reference : Ref) (index : Nat) (value : Value) (object : Object) : Answer Unit :=
  if object.kind = .closure ∧ index = 0 then .error (.heap .entryOverwritten)
  else if (object.word? index).isNone then .error (.heap (.noField index reference))
  else object.accepts value

end Object

namespace Heap

/-- Replaces a word of an object, which keeps its place. -/
def put (object : Ref) (index : Nat) (value : Value) (heap : Heap) : Heap :=
  ⟨heap.objects.modify object.index (Object.put index value)⟩

/-- A raw field. The entry of a closure is shown as a number if it is one. -/
def field (object : Ref) (index : Nat) (heap : Heap) : Answer Value :=
  match heap.get object with
  | .error cause => .error cause
  | .ok found =>
    match found, index with
    | .closure entry _, 0 => (int32OfNat entry).map .scalar
    | found, index =>
      match found.word? index with
      | some value => .ok value
      | none => .error (.heap (.noField index object))

/-- Whether there is a field that can take a value. -/
def fieldPlace (object : Ref) (index : Nat) (value : Value) (heap : Heap) : Answer Unit :=
  match heap.get object with
  | .error cause => .error cause
  | .ok found => found.checkField object index value

def setField (object : Ref) (index : Nat) (value : Value) : Action Heap Unit := fun heap =>
  match heap.fieldPlace object index value with
  | .ok () => .ok () (heap.put object index value)
  | .error cause => .error cause heap

/-- An element. -/
def element (container : Value) (index : Int32) (heap : Heap) : Answer Value :=
  match heap.resolve container with
  | .error cause => .error cause
  | .ok object =>
    match object.elementPosition index with
    | .error cause => .error cause
    | .ok position => .ok ((object.word? position).getD Value.zero)

/-- Where an element is that can take a value. -/
def elementPlace (container : Value) (index : Int32) (value : Value) (heap : Heap) :
    Answer (Ref × Nat) := do
  let object ← container.expectRef
  let found ← heap.get object
  let position ← found.elementPosition index
  found.accepts value
  return (object, position)

def setElement (container : Value) (index : Int32) (value : Value) : Action Heap Unit :=
  fun heap =>
    match heap.elementPlace container index value with
    | .ok (object, position) => .ok () (heap.put object position value)
    | .error cause => .error cause heap

/-- The offset of a closure's code. -/
def entry (object : Ref) (heap : Heap) : Answer Nat :=
  match heap.get object with
  | .error cause => .error cause
  | .ok (.closure entry _) => .ok entry
  | .ok other => .error (.heap (.expectedClosure other.kind))

/-- The length of an object, if it is a number. -/
def length (value : Value) (heap : Heap) : Answer Int32 :=
  match heap.resolve value with
  | .error cause => .error cause
  | .ok object => int32OfNat object.length

/-- Two words lead to strings with the same bytes. -/
def sameString (a b : Value) (heap : Heap) : Bool :=
  match heap.lookup? a, heap.lookup? b with
  | some (.string x), some (.string y) => x == y
  | _, _ => false

/-- A word leads to an object of this kind. -/
def hasKind (kind : ObjectKind) (value : Value) (heap : Heap) : Bool :=
  match heap.lookup? value with
  | some object => object.kind == kind
  | none => false

/-- A word leads to an aggregate with this tag and number of fields. -/
def isAggregate (value : Value) (tag : Int32) (arity : Nat) (heap : Heap) : Bool :=
  match heap.lookup? value with
  | some (.aggregate found fields) => found == tag && fields.size == arity
  | _ => false

/-- A word leads to an array of this length. -/
def isArray (value : Value) (length : Nat) (heap : Heap) : Bool :=
  match heap.lookup? value with
  | some (.array elements) => elements.size == length
  | _ => false

end Heap

end BytecodeMachine
