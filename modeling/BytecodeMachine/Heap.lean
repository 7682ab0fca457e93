import BytecodeMachine.Value.Expect
/-!
# The heap

Objects are kept in the order of their creation and never removed; a reference is a
position in that order and stays valid. What may be done with an object depends on
its kind, and is in `BytecodeMachine.Heap.Access`.
-/
namespace BytecodeMachine

inductive Object
  | string (bytes : Array UInt8)
  | array (elements : Array Value)
  /-- A constructor, given by its tag, with its fields. -/
  | aggregate (tag : Int32) (fields : Array Value)
  /-- A function, given by the offset of its code, with what it has captured. -/
  | closure (entry : Nat) (captured : Array Value)
deriving DecidableEq, Repr, Inhabited

namespace Object

def kind : Object → ObjectKind
  | .string _ => .string
  | .array _ => .array
  | .aggregate _ _ => .aggregate
  | .closure _ _ => .closure

/-- The number of elements, or of words for a closure, whose entry is one of them. -/
def length : Object → Nat
  | .string bytes => bytes.size
  | .array elements => elements.size
  | .aggregate _ fields => fields.size
  | .closure _ captured => captured.size + 1

end Object

structure Heap where
  objects : Array Object := #[]
deriving DecidableEq, Repr

namespace Heap

/-- The number of objects. -/
def size (heap : Heap) : Nat := heap.objects.size

/-- Adds an object. There are no more references than 32 bits can tell apart. -/
def alloc (object : Object) : Action Heap Ref := fun heap =>
  if heap.size < 4294967296 then .ok ⟨heap.size⟩ ⟨heap.objects.push object⟩
  else .error (.heap (.exhausted heap.size)) heap

/-- The object that a reference leads to. -/
def get (heap : Heap) (object : Ref) : Answer Object :=
  match heap.objects[object.index]? with
  | some found => .ok found
  | none => .error (.heap (.dangling object))

/-- The object that a word leads to, if it is a reference to one. -/
def lookup? (heap : Heap) : Value → Option Object
  | .ref object => heap.objects[object.index]?
  | _ => none

/-- The object that a word has to lead to. -/
def resolve (heap : Heap) (value : Value) : Answer Object :=
  match value.expectRef with
  | .ok object => heap.get object
  | .error cause => .error cause

/-- Puts an object in the place of another. -/
def replace (object : Ref) (next : Object) : Action Heap Unit := fun heap =>
  match heap.get object with
  | .ok _ => .ok () ⟨heap.objects.setIfInBounds object.index next⟩
  | .error cause => .error cause heap

end Heap

end BytecodeMachine
