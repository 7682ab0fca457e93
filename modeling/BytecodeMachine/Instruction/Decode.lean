import BytecodeMachine.Action
import BytecodeMachine.LittleEndian
/-!
# Reading instructions

A cursor is a position in the code. Every read is checked, so that an instruction
that is cut off is a fault. A fault leaves the cursor behind what was read before
it: nothing is put back.

Every opcode byte whose high half is fifteen is `stop`. All other instructions
have one binary form.
-/
namespace BytecodeMachine

/-- A position in the code. It may lie behind the end, where nothing can be read. -/
structure Cursor where
  code : Array UInt8
  pos : Nat

namespace Cursor

/-- How many bytes are left. -/
def remaining (cursor : Cursor) : Nat := cursor.code.size - cursor.pos

def atEnd (cursor : Cursor) : Bool := cursor.code.size ≤ cursor.pos

def byte : Action Cursor UInt8 := fun cursor =>
  if inside : cursor.pos < cursor.code.size then
    .ok (cursor.code[cursor.pos]) { cursor with pos := cursor.pos + 1 }
  else .error (.code (.byteMissing cursor.pos)) cursor

def number : Action Cursor Int32 := fun cursor =>
  if inside : cursor.pos + 4 ≤ cursor.code.size then
    .ok (LittleEndian.decode cursor.code[cursor.pos] cursor.code[cursor.pos + 1]
        cursor.code[cursor.pos + 2] cursor.code[cursor.pos + 3])
      { cursor with pos := cursor.pos + 4 }
  else .error (.code (.numberMissing cursor.pos)) cursor

/-- Reads the index of a variable whose storage has been read. The storage is checked first. -/
def variableIn (code : UInt8) : Action Cursor Variable := do
  match Storage.ofCode? code with
  | none => throw (.code (.invalidStorage code))
  | some storage => return ⟨storage, ← number⟩

/-- Reads the captured variables of a closure. -/
def captures : Nat → Action Cursor (List Variable)
  | 0 => return []
  | count + 1 => do
    let first ← variableIn (← byte)
    return first :: (← captures count)

end Cursor

namespace Instruction

open Cursor

/-- The instruction that a code has selected, or the fault that no instruction has this code. -/
def selected (invalid : Fault) (choice : Option Instruction) : Action Cursor Instruction :=
  match choice with
  | some instruction => return instruction
  | none => throw invalid

/-- Reads the operands of a closure. Each capture takes five bytes, and a count that
cannot be there is refused before any capture is read. -/
def readClosure (offset : Nat) : Action Cursor Instruction := do
  let target ← number
  let count ← number
  if count < 0 then throw (.code (.negativeCaptures count offset))
  if (← get).remaining < count.toInt.toNat * 5 then
    throw (.code (.capturesOverrun count offset))
  return .closure target (← captures count.toInt.toNat)

/-- The first family: constants, data on the stack, jumps. -/
def readBasic (invalid : Fault) (member : UInt8) : Action Cursor Instruction :=
  match member with
  | 0 => return .constant (← number)
  | 1 => return .string (← number)
  | 2 => return .aggregate (← number) (← number)
  | 3 => return .storeThrough
  | 4 => return .storeElement
  | 5 => return .jump (← number)
  | 6 => return .leave
  | 7 => return .ret
  | 8 => return .drop
  | 9 => return .duplicate
  | 10 => return .swap
  | 11 => return .element
  | _ => throw invalid

/-- The fifth family: branches, frames, calls, matching. -/
def readControl (invalid : Fault) (offset : Nat) (member : UInt8) : Action Cursor Instruction :=
  match member with
  | 0 => return .jumpIfZero (← number)
  | 1 => return .jumpUnlessZero (← number)
  | 2 => return .enter (← number) (← number)
  | 3 => return .enterClosure (← number) (← number)
  | 4 => readClosure offset
  | 5 => return .callClosure (← number)
  | 6 => return .call (← number) (← number)
  | 7 => return .matchAggregate (← number) (← number)
  | 8 => return .matchArray (← number)
  | 9 => return .failure (← number) (← number)
  | 10 => return .line (← number)
  | _ => throw invalid

/-- The seventh family: the built-in functions. -/
def readBuiltin (invalid : Fault) (member : UInt8) : Action Cursor Instruction :=
  match member with
  | 0 => return .readNumber
  | 1 => return .writeNumber
  | 2 => return .length
  | 3 => return .print
  | 4 => return .array (← number)
  | _ => throw invalid

/-- Reads what follows an opcode that was found at an offset. -/
def readOperands (offset : Nat) (opcode : UInt8) : Action Cursor Instruction :=
  let member := opcode % 16
  let invalid := Fault.code (.invalidOpcode opcode offset)
  match opcode / 16 with
  | 0 => selected invalid ((Operator.ofCode? member).map .binary)
  | 1 => readBasic invalid member
  | 2 => return .load (← variableIn member)
  | 3 => return .loadPlace (← variableIn member)
  | 4 => return .store (← variableIn member)
  | 5 => readControl invalid offset member
  | 6 => selected invalid ((Pattern.ofCode? member).map .test)
  | 7 => readBuiltin invalid member
  | 15 => return .stop
  | _ => throw invalid

/-- Reads the instruction at the cursor and leaves the cursor on the next one. -/
def read : Action Cursor Instruction := do
  let offset := (← get).pos
  let opcode ← byte
  readOperands offset opcode

end Instruction

end BytecodeMachine
