import BytecodeMachine.Host
import BytecodeMachine.Image
import BytecodeMachine.Stack
/-!
# Machines

A machine has a stack, a globals area and a host, and four registers: the frame
pointer, the offset of the next instruction, the source line if one has been
announced, and the number of calls that have not returned. The image is not a part
of a machine; each step is given it.

A new machine has a frame at the bottom of its stack as if it had been called with
two arguments from nowhere. Returning to nowhere ends a run.
-/
namespace BytecodeMachine

structure Machine (σ : Type) where
  stack : Stack
  globals : Array Value
  host : σ
  /-- The index of the running function's frame on the stack. -/
  frame : Nat
  /-- The offset of the next instruction. -/
  next : Nat
  line : Option Int32
  depth : Nat

/-- How a run goes on after an instruction. -/
inductive Flow
  | next
  | halt
deriving DecidableEq, Repr

namespace Machine

variable {σ α : Type}

/-- The stack size of a machine for which none is given. -/
def defaultCapacity : Nat := 1048576

/-- The greatest stack size: frame pointers are kept in words. -/
def greatestCapacity : Nat := 1073741823

/-- The return address of the frame at the bottom. -/
def nowhere : Int32 := -1

def onStack (action : Action Stack α) : Action (Machine σ) α :=
  fun ⟨stack, globals, host, frame, next, line, depth⟩ =>
    match action stack with
    | .ok a stack => .ok a ⟨stack, globals, host, frame, next, line, depth⟩
    | .error cause stack => .error cause ⟨stack, globals, host, frame, next, line, depth⟩

def onHost (action : Action σ α) : Action (Machine σ) α :=
  fun ⟨stack, globals, host, frame, next, line, depth⟩ =>
    match action host with
    | .ok a host => .ok a ⟨stack, globals, host, frame, next, line, depth⟩
    | .error cause host => .error cause ⟨stack, globals, host, frame, next, line, depth⟩

/-- What the host sees, without a change. -/
def askHost (look : σ → Answer α) : Action (Machine σ) α := Action.observe fun m => look m.host

def push (value : Value) : Action (Machine σ) Unit := onStack (Stack.push value)

def pop : Action (Machine σ) Value := onStack Stack.pop

/-- Fills a new stack: two arguments, the return address and the number of arguments. -/
def openBottom : Action Stack Unit := do
  Stack.push Value.zero
  Stack.push Value.zero
  Stack.push (.scalar nowhere)
  Stack.push (.scalar 2)

/-- A new machine for an image, around a host that is ready. Its stack and its globals are
allocated, in that order. -/
def ofHost (image : Image) (capacity : Nat) (allocator : Allocator) (host : σ) :
    Answer (Machine σ) := do
  let stack ← Stack.ofCapacity capacity allocator
  let globals ← zeroWords allocator image.globals .globals
  match openBottom stack with
  | .ok () stack => return ⟨stack, globals, host, stack.top, 0, none, 0⟩
  | .error cause _ => throw cause

/-- Makes a machine, and says what has been announced on the way, also if there is none. -/
def start [Host σ] (image : Image) (capacity : Nat) (allocator : Allocator) (host : σ) :
    List Event × Answer (Machine σ) :=
  if greatestCapacity < capacity then
    ([], .error (.machine (.capacityTooLarge capacity)))
  else
    match Host.prepare host with
    | .error cause _ => ([], .error cause)
    | .ok events host =>
      match ofHost image capacity allocator host with
      | .error cause => (events, .error cause)
      | .ok m => (events ++ [.machineReady image.globals image.code.size capacity], .ok m)

end Machine

end BytecodeMachine
