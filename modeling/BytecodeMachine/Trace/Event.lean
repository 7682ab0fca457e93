import BytecodeMachine.Value
/-!
# Events

What a run announces to those who follow it. Each event belongs to a source, a
dotted path of names, and has a level of detail; filters select events by both.
-/
namespace BytecodeMachine

/-- The levels of detail, the most urgent first. -/
inductive Level
  | error
  | warn
  | info
  | debug
  | trace
deriving DecidableEq, Repr

def Level.detail : Level → Nat
  | .error => 1
  | .warn => 2
  | .info => 3
  | .debug => 4
  | .trace => 5

inductive Event
  /-- An image has been read from a file. -/
  | loaded (path : String) (code publics : Nat)
  /-- The heap and the console are there. -/
  | hostReady
  /-- A machine has been made. -/
  | machineReady (globals code stack : Nat)
  /-- An instruction has been read and is about to be executed. -/
  | instruction (offset : Nat)
  /-- A function has been called. A called closure is not counted as an argument. -/
  | called (depth entry arguments : Nat)
  | returned (depth address : Nat) (result : Value)
  | halted (offset size : Nat)
deriving DecidableEq, Repr

namespace Event

def source : Event → String
  | .loaded _ _ _ => "byterun"
  | .hostReady => "byterun::runtime"
  | .machineReady _ _ _ => "byterun::vm"
  | .instruction _ => "byterun::vm::dispatch"
  | .called _ _ _ => "byterun::vm::call"
  | .returned _ _ _ => "byterun::vm::call"
  | .halted _ _ => "byterun::vm"

def level : Event → Level
  | .loaded _ _ _ => .debug
  | .hostReady => .debug
  | .machineReady _ _ _ => .debug
  | .instruction _ => .trace
  | .called _ _ _ => .debug
  | .returned _ _ _ => .debug
  | .halted _ _ => .info

/-- An event as a line for people. -/
def text : Event → String
  | .loaded path code publics => s!"bytecode loaded path={path} code={code} publics={publics}"
  | .hostReady => "native runtime initialized"
  | .machineReady globals code stack =>
    s!"interpreter ready globals={globals} code={code} stack={stack}"
  | .instruction offset => s!"offset={offset}"
  | .called depth entry arguments => s!"call depth={depth} entry={entry} argc={arguments}"
  | .returned depth address result => s!"return depth={depth} ret={address} result={result.text}"
  | .halted offset size => s!"halted offset={offset} stack={size}"

end Event

end BytecodeMachine
