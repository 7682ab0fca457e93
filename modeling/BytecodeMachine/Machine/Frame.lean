import BytecodeMachine.Machine
/-!
# Frames and variables

The frame of a running function is at the frame pointer `f`:

* local `i` at `f - 1 - i`,
* the caller's frame pointer at `f`,
* the number of arguments at `f + 1`,
* the return address at `f + 2`,
* argument `i` at `f + 3 + i`.

The call of a closure passes the closure itself as the last argument. Captured
variables are read from there, as fields of it from one on.

Nothing of this is trusted: a program can reach every live word, so a frame is
checked whenever it is used.
-/
namespace BytecodeMachine.Machine

variable {σ α : Type}

/-- The number of arguments of the running function. -/
def argumentCount (m : Machine σ) : Answer Nat := do
  let word ← m.stack.get (m.frame + 1)
  let count ← Answer.during .argumentCount word.expectScalar
  if count < 0 then throw (.frame (.negativeArguments count))
  return count.toInt.toNat

/-- The closure that runs in the current frame. -/
def runningClosure (m : Machine σ) : Answer Ref := do
  let count ← m.argumentCount
  if count = 0 then throw (.frame .noClosure)
  let word ← m.stack.get (m.frame + 3 + (count - 1))
  Answer.during .lastArgument word.expectRef

/-- Where a variable is in the current frame. Only globals and locals are checked here;
arguments and captures may turn out not to be there when they are used. -/
def place (name : Variable) (m : Machine σ) : Answer Slot := do
  if name.index < 0 then throw (.frame (.negativeIndex name.storage name.index))
  let index := name.index.toInt.toNat
  match name.storage with
  | .globals =>
    if index < m.globals.size then return .global index
    else throw (.frame (.globalUndeclared index m.globals.size))
  | .locals =>
    if index < m.frame then return .stack (m.frame - (index + 1))
    else throw (.frame (.localBelowStack index))
  | .arguments => return .stack (m.frame + 3 + index)
  | .captures => return .field (← m.runningClosure) (index + 1)

/-- The word at a place. -/
def readSlot [Host σ] (place : Slot) (m : Machine σ) : Answer Value :=
  match place with
  | .global index =>
    match m.globals[index]? with
    | some value => .ok value
    | none => .error (.frame (.globalMissing index))
  | .stack index => m.stack.get index
  | .field object index => Host.field object index m.host

/-- Replaces a word of the globals area. -/
def writeGlobal (index : Nat) (value : Value) : Action (Machine σ) Unit :=
  fun ⟨stack, globals, host, frame, next, line, depth⟩ =>
    if index < globals.size then
      .ok () ⟨stack, globals.setIfInBounds index value, host, frame, next, line, depth⟩
    else
      .error (.frame (.globalMissing index)) ⟨stack, globals, host, frame, next, line, depth⟩

/-- Replaces the word at a place. -/
def writeSlot [Host σ] (place : Slot) (value : Value) : Action (Machine σ) Unit :=
  match place with
  | .global index => writeGlobal index value
  | .stack index => onStack (Stack.set index value)
  | .field object index => onHost (Host.setField object index value)

/-- The word of a variable. -/
def load [Host σ] (name : Variable) (m : Machine σ) : Answer Value := do
  let place ← m.place name
  Answer.during (.loading name) (m.readSlot place)

/-- The words of several variables, in order. The first that fails is reported. -/
def loadAll [Host σ] (names : List Variable) (m : Machine σ) : Answer (List Value) :=
  match names with
  | [] => return []
  | name :: rest => return (← m.load name) :: (← loadAll rest m)

/-- Replaces the word of a variable. -/
def store [Host σ] (name : Variable) (value : Value) : Action (Machine σ) Unit := do
  let place ← Action.observe (place name)
  (writeSlot place value).during (.storing name)

/-- Replaces the word at the place that a word names. -/
def storeThrough [Host σ] (target value : Value) : Action (Machine σ) Unit :=
  match target with
  | .slot place => writeSlot place value
  | other => throw (.expectedPlace other.kind)

def setFrame (index : Nat) : Action (Machine σ) Unit :=
  modify fun m => { m with frame := index }

/-- Goes on at an offset. -/
def jumpTo (offset : Nat) : Action (Machine σ) Unit :=
  modify fun m => { m with next := offset }

/-- An address operand as an offset in the code. -/
def target (image : Image) (address : Int32) : Answer Nat :=
  if 0 ≤ address ∧ address.toInt.toNat < image.code.size then .ok address.toInt.toNat
  else .error (.machine (.targetOutside address image.code.size))

/-- Opens the frame of a function with this many locals, all of them zero. The frame is
there even if there is no room for the locals. -/
def enter (locals : Nat) : Action (Machine σ) Unit := do
  push (.scalar (Int32.ofNat (← get).frame))
  setFrame (← get).stack.top
  onStack (Stack.reserve locals)

/-- Calls a function with the topmost words as arguments. `dropped` is how many of them
the function drops on its return, which for a closure is one more. -/
def call (entry arguments dropped : Nat) : Action (Machine σ) Unit := do
  onStack (Stack.reverse arguments)
  push (.scalar (← Action.answer (int32OfNat (← get).next)))
  push (.scalar (← Action.answer (int32OfNat dropped)))
  modify fun m => { m with next := entry, depth := m.depth + 1 }

/-- The caller's frame pointer, from the top of the stack. -/
def popLink : Action (Machine σ) Nat := do
  let word ← pop
  let pointer ← Action.answer (Answer.during .frameLink word.expectScalar)
  if 0 ≤ pointer ∧ pointer.toInt.toNat ≤ (← get).stack.bottom then return pointer.toInt.toNat
  else throw (.frame (.linkOutside pointer))

/-- The number of arguments, from the top of the stack. -/
def popArgumentCount : Action (Machine σ) Nat := do
  let word ← pop
  let count ← Action.answer (Answer.during .argumentCount word.expectScalar)
  if count < 0 then throw (.frame (.negativeArguments count))
  return count.toInt.toNat

/-- The return address, from the top of the stack. -/
def popReturn : Action (Machine σ) Int32 := do
  let word ← pop
  Action.answer (Answer.during .returnAddress word.expectScalar)

/-- Leaves the running function: takes its frame and its arguments from the stack, puts its
result there and goes on behind the call. Leaving for nowhere ends the run. -/
def leave (image : Image) : Action (Machine σ) Flow := do
  let result ← pop
  onStack (Stack.setTop (← get).frame)
  let frame ← popLink
  let arguments ← popArgumentCount
  let address ← popReturn
  onStack (Stack.drop arguments)
  push result
  setFrame frame
  if address = nowhere then return .halt
  let offset ← Action.answer (Answer.during .returnAddress (target image address))
  modify fun m => { m with next := offset, depth := m.depth - 1 }
  return .next

end BytecodeMachine.Machine
