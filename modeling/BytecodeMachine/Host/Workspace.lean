import BytecodeMachine.Console
import BytecodeMachine.Heap.Access
import BytecodeMachine.Heap.Print
import BytecodeMachine.Host
/-!
# The host of a program

A workspace is a heap and a console. It serves a machine as it is; wrapped as
`Plain` it serves a machine through the defaults of `Host` where there are any, so
that the entry of a closure is read as its field.
-/
namespace BytecodeMachine

structure Workspace where
  heap : Heap := {}
  console : Console := {}
deriving DecidableEq, Repr

namespace Workspace

/-- A workspace with an empty heap. -/
def ofInput (input : List UInt8) (sink : Sink) : Workspace :=
  { console := { input := input, sink := sink } }

variable {α : Type}

def onHeap (action : Action Heap α) : Action Workspace α := fun ⟨heap, console⟩ =>
  match action heap with
  | .ok a heap => .ok a ⟨heap, console⟩
  | .error cause heap => .error cause ⟨heap, console⟩

def onConsole (action : Action Console α) : Action Workspace α := fun ⟨heap, console⟩ =>
  match action console with
  | .ok a console => .ok a ⟨heap, console⟩
  | .error cause console => .error cause ⟨heap, console⟩

/-- Makes a string of a word's printed form. -/
def print (value : Value) : Action Workspace Ref := do
  let text := (← get).heap.print value
  onHeap (Heap.alloc (.string text.toUTF8.data))

instance : Host Workspace where
  prepare := return [.hostReady]
  newString bytes := onHeap (Heap.alloc (.string bytes))
  newArray elements := onHeap (Heap.alloc (.array elements))
  newAggregate tag fields := onHeap (Heap.alloc (.aggregate tag fields))
  newClosure entry captured := onHeap (Heap.alloc (.closure entry captured))
  field object index host := host.heap.field object index
  setField object index value := onHeap (Heap.setField object index value)
  entry object host := host.heap.entry object
  element container index host := host.heap.element container index
  setElement container index value := onHeap (Heap.setElement container index value)
  tag name _ := Tag.ofName name.toList
  sameString a b host := .ok (host.heap.sameString a b)
  isString value host := host.heap.hasKind .string value
  isArray value host := host.heap.hasKind .array value
  isAggregate value host := host.heap.hasKind .aggregate value
  isClosure value host := host.heap.hasKind .closure value
  matchesAggregate value tag arity host := host.heap.isAggregate value tag arity
  matchesArray value length host := host.heap.isArray value length
  readNumber := onConsole Console.readNumber
  writeNumber number := onConsole (Console.writeNumber number)
  length value host := host.heap.length value
  print := print

/-- A workspace that leaves to the defaults of a host what they can answer. -/
structure Plain where
  workspace : Workspace
deriving DecidableEq, Repr

namespace Plain

def lift (action : Action Workspace α) : Action Plain α := fun ⟨workspace⟩ =>
  match action workspace with
  | .ok a workspace => .ok a ⟨workspace⟩
  | .error cause workspace => .error cause ⟨workspace⟩

instance : Host Plain where
  newString bytes := lift (Host.newString bytes)
  newArray elements := lift (Host.newArray elements)
  newAggregate tag fields := lift (Host.newAggregate tag fields)
  newClosure entry captured := lift (Host.newClosure entry captured)
  field object index host := Host.field object index host.workspace
  setField object index value := lift (Host.setField object index value)
  element container index host := Host.element container index host.workspace
  setElement container index value := lift (Host.setElement container index value)
  tag name host := Host.tag name host.workspace
  sameString a b host := Host.sameString a b host.workspace
  isString value host := Host.isString value host.workspace
  isArray value host := Host.isArray value host.workspace
  isAggregate value host := Host.isAggregate value host.workspace
  isClosure value host := Host.isClosure value host.workspace
  matchesAggregate value tag arity host := Host.matchesAggregate value tag arity host.workspace
  matchesArray value length host := Host.matchesArray value length host.workspace
  readNumber := lift Host.readNumber
  writeNumber number := lift (Host.writeNumber number)
  length value host := Host.length value host.workspace
  print value := lift (Host.print value)

end Plain

end Workspace

end BytecodeMachine
