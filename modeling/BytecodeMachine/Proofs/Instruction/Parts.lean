import BytecodeMachine.Instruction.Decode
/-!
# What reading an instruction is made of

Reading takes bytes and numbers off the cursor, looks where the cursor is, and refuses with faults
of the code. All else in it is a choice of what to do next. So what holds of these few parts, and
of a sequence when it holds of what the sequence is made of, holds of reading an instruction,
whichever instruction it is and however reading ends. The case analysis over the families of
opcodes is made here, once.
-/
namespace BytecodeMachine

namespace Cursor

/-- A property of actions holds of the parts of reading and goes through sequences. -/
structure HoldsOfParts (holds : (α : Type) → Action Cursor α → Prop) : Prop where
  holds_byte : holds UInt8 byte
  holds_number : holds Int32 number
  holds_get : holds Cursor get
  holds_pure {α : Type} (a : α) : holds α (pure a)
  holds_throw {α : Type} (cause : CodeFault) : holds α (throw (.code cause))
  holds_bind {α β : Type} {first : Action Cursor α} {next : α → Action Cursor β} :
    holds α first → (∀ a, holds β (next a)) → holds β (first >>= next)

end Cursor

namespace Cursor.HoldsOfParts

open Instruction

variable {holds : (α : Type) → Action Cursor α → Prop} (parts : HoldsOfParts holds)
include parts

/-- The storage is known before a number is read, so a variable is a refusal or one number. -/
theorem holds_variableIn (code : UInt8) : holds Variable (variableIn code) := by
  unfold variableIn
  split
  · exact parts.holds_throw _
  · exact parts.holds_bind parts.holds_number fun _ => parts.holds_pure _

/-- Captured variables are read one by one: by induction on how many are left. -/
theorem holds_captures (count : Nat) : holds (List Variable) (captures count) := by
  induction count with
  | zero => exact parts.holds_pure _
  | succ count later =>
    refine parts.holds_bind parts.holds_byte fun b => ?_
    refine parts.holds_bind (parts.holds_variableIn b) fun _ => ?_
    exact parts.holds_bind later fun _ => parts.holds_pure _

/-- An instruction with one operand reads a number and answers. -/
theorem holds_oneNumber (make : Int32 → Instruction) :
    holds Instruction (do return make (← number)) :=
  parts.holds_bind parts.holds_number fun _ => parts.holds_pure _

/-- One with two operands reads a number and goes on as one with one. -/
theorem holds_twoNumbers (make : Int32 → Int32 → Instruction) :
    holds Instruction (do return make (← number) (← number)) :=
  parts.holds_bind parts.holds_number fun _ => parts.holds_oneNumber (make _)

/-- One about a variable reads the variable. -/
theorem holds_oneVariable (make : Variable → Instruction) (code : UInt8) :
    holds Instruction (do return make (← variableIn code)) :=
  parts.holds_bind (parts.holds_variableIn code) fun _ => parts.holds_pure _

/-- A choice made from the opcode alone is an answer or a refusal, and reads nothing. -/
theorem holds_selected (cause : CodeFault) (choice : Option Instruction) :
    holds Instruction (selected (.code cause) choice) := by
  cases choice with
  | some instruction => exact parts.holds_pure _
  | none => exact parts.holds_throw cause

/-- A closure reads its address and a count. It looks at what remains of the code before it goes on
to the captured variables. -/
theorem holds_readClosure (offset : Nat) : holds Instruction (readClosure offset) := by
  have reads (target count : Int32) : holds Instruction do
      if (← get).remaining < count.toInt.toNat * 5 then
        throw (.code (.capturesOverrun count offset))
      return .closure target (← captures count.toInt.toNat) := by
    refine parts.holds_bind parts.holds_get fun cursor => ?_
    have goesOn : holds Instruction (do return .closure target (← captures count.toInt.toNat)) :=
      parts.holds_bind (parts.holds_captures _) fun _ => parts.holds_pure _
    split
    · exact parts.holds_bind (parts.holds_throw _) fun _ => goesOn
    · exact goesOn
  refine parts.holds_bind parts.holds_number fun target => ?_
  refine parts.holds_bind parts.holds_number fun count => ?_
  split
  · exact parts.holds_bind (parts.holds_throw _) fun _ => reads target count
  · exact reads target count

/-- Of what is read behind an opcode. The families differ in which parts they take, and every
member of them is a refusal or one of the shapes above. -/
theorem holds_readOperands (offset : Nat) (opcode : UInt8) :
    holds Instruction (readOperands offset opcode) := by
  unfold readOperands
  dsimp only
  split
  · exact parts.holds_selected _ _
  · unfold readBasic
    split <;> first
      | exact parts.holds_pure _
      | exact parts.holds_oneNumber _
      | exact parts.holds_twoNumbers _
      | exact parts.holds_throw _
  · exact parts.holds_oneVariable .load _
  · exact parts.holds_oneVariable .loadPlace _
  · exact parts.holds_oneVariable .store _
  · unfold readControl
    split <;> first
      | exact parts.holds_oneNumber _
      | exact parts.holds_twoNumbers _
      | exact parts.holds_readClosure _
      | exact parts.holds_throw _
  · exact parts.holds_selected _ _
  · unfold readBuiltin
    split <;> first
      | exact parts.holds_pure _
      | exact parts.holds_oneNumber _
      | exact parts.holds_throw _
  · exact parts.holds_pure _
  · exact parts.holds_throw _

/-- The whole decoder: a look at the position, the opcode, and the operands that it selects. -/
theorem holds_read : holds Instruction read :=
  parts.holds_bind parts.holds_get fun _ => parts.holds_bind parts.holds_byte fun _ =>
    parts.holds_readOperands _ _

end Cursor.HoldsOfParts

end BytecodeMachine
