import BytecodeMachine.Instruction.Encode
import BytecodeMachine.Value.Expect
/-!
# Writing code

Code is drafted instruction by instruction. A jump to a place that is not yet known
is written with some address first and patched once the place is known. Only
jumps, calls and closures have an address; it stands right after the opcode.
-/
namespace BytecodeMachine

/-- Code that is being written. -/
structure CodeDraft where
  code : Array UInt8 := #[]

namespace CodeDraft

/-- The offset at which the next instruction will stand. -/
def here (draft : CodeDraft) : Nat := draft.code.size

def emit (draft : CodeDraft) (instruction : Instruction) : CodeDraft :=
  ⟨draft.code ++ instruction.encode⟩

/-- The opcodes whose first operand is an address. -/
def hasTarget (opcode : UInt8) : Bool :=
  opcode == 0x15 || opcode == 0x50 || opcode == 0x51 || opcode == 0x54 || opcode == 0x56

/-- Writes bytes over the code from a position upwards. -/
def overwrite (code : Array UInt8) (start : Nat) : List UInt8 → Array UInt8
  | [] => code
  | b :: rest => overwrite (code.setIfInBounds start b) (start + 1) rest

/-- The opcode of whatever stands at an offset. -/
def opcodeAt (offset : Nat) (draft : CodeDraft) : Answer UInt8 :=
  match draft.code[offset]? with
  | some opcode => .ok opcode
  | none => .error (.code (.noInstruction offset))

/-- Replaces the address of the instruction at an offset. What stands there is told by
its opcode alone, so an offset inside an instruction may pass for one; then the
address may be cut off by the end of the code. -/
def patch (offset target : Nat) : Action CodeDraft Unit := do
  let opcode ← Action.observe (opcodeAt offset)
  if hasTarget opcode then
    let address ← Action.answer (int32OfNat target)
    let draft ← get
    if offset + 5 ≤ draft.code.size then
      set (⟨overwrite draft.code (offset + 1) (LittleEndian.encode address)⟩ : CodeDraft)
    else throw (.code (.targetCutOff offset))
  else throw (.code (.noTarget opcode offset))

end CodeDraft

end BytecodeMachine
