import BytecodeMachine.Instruction.Decode
import BytecodeMachine.Machine.Arithmetic
import BytecodeMachine.Machine.Frame
/-!
# Executing instructions

`execute` says what each instruction does, and `advance` is one turn of a machine: it
reads the instruction at the next offset, moves on behind it and executes it. A
fault keeps what was done before it. It is reported with the offset of the
instruction and the source line.
-/
namespace BytecodeMachine.Machine

variable {σ : Type} [Host σ]

/-- A number of words given by an operand. -/
def count (operand : Int32) : Answer Nat :=
  if operand < 0 then .error (.machine (.negativeCount operand)) else .ok operand.toInt.toNat

/-- Takes the topmost words from the stack, the deepest first, for what is made of them, and
puts a reference to it there. The words are still there if it cannot be made. -/
def gather (size : Nat) (make : Array Value → Action σ Ref) : Action (Machine σ) Unit := do
  onStack (Stack.reverse size)
  let words ← Action.observe fun m => m.stack.window size
  let object ← onHost (make words)
  onStack (Stack.drop size)
  push (.ref object)

/-- Whether a word passes a test of the pattern family that looks at one word. -/
def passes (host : σ) (value : Value) : Pattern → Bool
  | .string => Host.isString value host
  | .array => Host.isArray value host
  | .aggregate => Host.isAggregate value host
  | .reference => Host.isReference value host
  | .number => Host.isNumber value host
  | .closure => Host.isClosure value host
  | .sameString => false

/-- A test of the pattern family. Comparing strings takes two words. -/
def test (pattern : Pattern) : Action (Machine σ) Unit := do
  match pattern with
  | .sameString =>
    let y ← pop
    let x ← pop
    push (.ofBool (← askHost (Host.sameString x y)))
  | pattern =>
    let value ← pop
    push (.ofBool (passes (← get).host value pattern))

/-- Stores the top word into an element if a number lies below it, and through the place
below it otherwise. The stored word stays. -/
def storeElement : Action (Machine σ) Unit := do
  let value ← pop
  match ← pop with
  | .scalar index =>
    let container ← pop
    onHost (Host.setElement container index value)
  | target => storeThrough target value
  push value

/-- Jumps if the top word, which is taken, is a number that is fit. -/
def branch (image : Image) (address : Int32) (fit : Int32 → Bool) : Action (Machine σ) Unit := do
  let word ← pop
  if fit (← Action.answer (Answer.during .condition word.expectScalar)) then
    jumpTo (← Action.answer (target image address))

/-- Calls the closure that lies below the arguments. It stays there, as the last argument. -/
def callClosure (image : Image) (arguments : Nat) : Action (Machine σ) Unit := do
  let word ← Action.observe fun m => m.stack.peek arguments
  let closure ← Action.answer (Answer.during .calledWord word.expectRef)
  let entry ← askHost (Host.entry closure)
  let offset ← Action.answer (do target image (← int32OfNat entry))
  call offset arguments (arguments + 1)

/-- What an instruction does. The next offset is already behind it. -/
def execute (image : Image) : Instruction → Action (Machine σ) Flow
  | .binary operator => do
    let y ← pop
    let x ← pop
    push (← Action.answer (operator.apply x y))
    return .next
  | .constant number => do
    push (.ofInt number)
    return .next
  | .string offset => do
    let bytes ← Action.answer (image.stringAt offset)
    push (.ref (← onHost (Host.newString bytes)))
    return .next
  | .aggregate name arity => do
    let size ← Action.answer (count arity)
    let bytes ← Action.answer (image.stringAt name)
    let tag ← askHost (Host.tag bytes)
    gather size (Host.newAggregate tag)
    return .next
  | .storeThrough => do
    let value ← pop
    let target ← pop
    storeThrough target value
    push value
    return .next
  | .storeElement => do
    storeElement
    return .next
  | .jump address => do
    jumpTo (← Action.answer (target image address))
    return .next
  | .leave => leave image
  | .ret => throw (.machine .unsupportedReturn)
  | .drop => do
    let _ ← pop
    return .next
  | .duplicate => do
    push (← Action.observe fun m => m.stack.peek 0)
    return .next
  | .swap => do
    let y ← pop
    let x ← pop
    push y
    push x
    return .next
  | .element => do
    let word ← pop
    let index ← Action.answer (Answer.during .elementIndex word.expectScalar)
    let container ← pop
    push (← askHost (Host.element container index))
    return .next
  | .load name => do
    push (← Action.observe (load name))
    return .next
  | .loadPlace name => do
    push (.slot (← Action.observe (place name)))
    return .next
  | .store name => do
    let value ← Action.observe fun m => m.stack.peek 0
    store name value
    return .next
  | .jumpIfZero address => do
    branch image address fun number => number = 0
    return .next
  | .jumpUnlessZero address => do
    branch image address fun number => number ≠ 0
    return .next
  | .enter _ locals => do
    enter (← Action.answer (count locals))
    return .next
  | .enterClosure _ locals => do
    enter (← Action.answer (count locals))
    return .next
  | .closure address captured => do
    let entry ← Action.answer (target image address)
    let values ← Action.observe (loadAll captured)
    push (.ref (← onHost (Host.newClosure entry values.toArray)))
    return .next
  | .callClosure arguments => do
    callClosure image (← Action.answer (count arguments))
    return .next
  | .call address arguments => do
    let size ← Action.answer (count arguments)
    let offset ← Action.answer (target image address)
    call offset size size
    return .next
  | .matchAggregate name arity => do
    let bytes ← Action.answer (image.stringAt name)
    let tag ← askHost (Host.tag bytes)
    let value ← pop
    let size ← Action.answer (count arity)
    push (.ofBool (Host.matchesAggregate value tag size (← get).host))
    return .next
  | .matchArray length => do
    let value ← pop
    let size ← Action.answer (count length)
    push (.ofBool (Host.matchesArray value size (← get).host))
    return .next
  | .failure line column => throw (.machine (.noMatch line column))
  | .line number => do
    modify fun m => { m with line := some number }
    return .next
  | .test pattern => do
    test pattern
    return .next
  | .readNumber => do
    push (.ofInt (← onHost Host.readNumber))
    return .next
  | .writeNumber => do
    let word ← pop
    let number ← Action.answer (Answer.during .writtenWord word.expectScalar)
    onHost (Host.writeNumber number)
    push Value.zero
    return .next
  | .length => do
    let value ← pop
    push (.ofInt (← askHost (Host.length value)))
    return .next
  | .print => do
    let value ← pop
    push (.ref (← onHost (Host.print value)))
    return .next
  | .array length => do
    gather (← Action.answer (count length)) Host.newArray
    return .next
  | .stop => return .halt

/-- The instruction at an offset of the code, and the offset behind it. -/
def fetch (image : Image) (offset : Nat) : Answer (Instruction × Nat) :=
  match Instruction.read ⟨image.code, offset⟩ with
  | .ok instruction cursor => .ok (instruction, cursor.pos)
  | .error cause _ => .error cause

/-- Executes an instruction, from an offset up to another. The line of a fault is the one
that is known when it arises. -/
def turn (image : Image) (offset behind : Nat) (instruction : Instruction) :
    Action (Machine σ) Flow := fun m =>
  match execute image instruction { m with next := behind } with
  | .ok flow m => .ok flow m
  | .error cause m => .error (.during (.instruction offset m.line) cause) m

/-- One turn of a machine. -/
def advance (image : Image) : Action (Machine σ) Flow := fun m =>
  if image.code.size ≤ m.next then .error (.machine (.ranPastEnd m.next)) m
  else
    match fetch image m.next with
    | .error cause => .error (.during (.instruction m.next m.line) cause) m
    | .ok (instruction, behind) => turn image m.next behind instruction m

end BytecodeMachine.Machine
