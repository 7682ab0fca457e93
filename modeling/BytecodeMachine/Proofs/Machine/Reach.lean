import BytecodeMachine.Machine.Step
import BytecodeMachine.Proofs.Stack
/-!
# What an instruction can reach

Every instruction works on the stack. Beyond that few reach further: what makes objects,
reads or writes has the host do it, jumps go on elsewhere, stores change globals and
objects, line marks change the line, and calls, entries and leaving change which function
runs. A part of a machine that does not depend on what an instruction reaches is kept by
it, whether it succeeds or faults.

The size of the stack's storage and the number of globals are out of everyone's reach.
-/
namespace BytecodeMachine

namespace Instruction

/-- Instructions that call a function. -/
def isCall : Instruction → Bool
  | .call _ _ | .callClosure _ => true
  | _ => false

/-- Instructions that open a frame. -/
def isEntry : Instruction → Bool
  | .enter _ _ | .enterClosure _ _ => true
  | _ => false

/-- Instructions that change which function runs. -/
def isTransfer : Instruction → Bool
  | .leave => true
  | instruction => instruction.isCall || instruction.isEntry

/-- Instructions that put a word into a variable, through a place or into an element. -/
def isStore : Instruction → Bool
  | .store _ | .storeThrough | .storeElement => true
  | _ => false

/-- Instructions that make an object. -/
def isMaking : Instruction → Bool
  | .string _ | .aggregate _ _ | .closure _ _ | .print | .array _ => true
  | _ => false

/-- Instructions that read or write a number. -/
def isConsole : Instruction → Bool
  | .readNumber | .writeNumber => true
  | _ => false

/-- Instructions that have the host do something. -/
def isRequest (instruction : Instruction) : Bool :=
  instruction.isMaking || instruction.isConsole || instruction.isStore

/-- Instructions that may go on elsewhere than behind themselves. -/
def isJump : Instruction → Bool
  | .jump _ | .jumpIfZero _ | .jumpUnlessZero _ | .leave => true
  | instruction => instruction.isCall

def isLine : Instruction → Bool
  | .line _ => true
  | _ => false

/-- A store may have the host write to an object, so it is one of the requests. -/
theorem isRequest_of_isStore {instruction : Instruction} (stores : instruction.isStore = true) :
    instruction.isRequest = true := by
  simp [isRequest, stores]

/-- An instruction that opens a frame does nothing else to which function runs. -/
theorem isCall_of_isEntry {instruction : Instruction} (opens : instruction.isEntry = true) :
    instruction.isCall = false := by
  cases instruction with
  | enter arguments locals => rfl
  | enterClosure arguments locals => rfl
  | _ => cases opens

/-- Apart from leaving, calls and entries, no instruction changes which function runs. The cases
are the instructions: five of them are excluded, and the others are no transfers. -/
theorem isTransfer_eq_false {instruction : Instruction} (stays : instruction ≠ .leave)
    (calls : instruction.isCall = false) (opens : instruction.isEntry = false) :
    instruction.isTransfer = false := by
  cases instruction with
  | leave => exact absurd rfl stays
  | call address arguments => cases calls
  | callClosure arguments => cases calls
  | enter arguments locals => cases opens
  | enterClosure arguments locals => cases opens
  | _ => rfl

end Instruction

namespace Stack

open BytecodeMachine.Action

/-! No operation changes the size of the storage, not even one that is refused. -/

/-- Pushing writes one word. -/
theorem push_keeps_capacity (value : Value) : Keeps capacity (push value) := by
  rintro ⟨words, top, inside⟩
  exact .of_dite rfl (fun _ => Array.size_set (by omega)) fun _ => rfl

/-- Popping moves the top and writes nothing. -/
theorem pop_keeps_capacity : Keeps capacity pop := by
  rintro ⟨words, top, inside⟩
  exact .of_dite rfl (fun _ => rfl) fun _ => rfl

/-- Dropping moves the top and writes nothing. -/
theorem drop_keeps_capacity (count : Nat) : Keeps capacity (drop count) := by
  rintro ⟨words, top, inside⟩
  exact .of_dite rfl (fun _ => rfl) fun _ => rfl

/-- The words that are reserved are written over words that were there. -/
theorem reserve_keeps_capacity (count : Nat) : Keeps capacity (reserve count) := by
  rintro ⟨words, top, inside⟩
  exact .of_dite rfl (fun _ => size_overwriteWords ..) fun _ => rfl

/-- The words are reversed where they are. -/
theorem reverse_keeps_capacity (count : Nat) : Keeps capacity (reverse count) := by
  rintro ⟨words, top, inside⟩
  exact .of_dite rfl (fun _ => size_overwriteWords ..) fun _ => rfl

/-- Moving the top writes nothing. -/
theorem setTop_keeps_capacity (index : Nat) : Keeps capacity (setTop index) := by
  rintro ⟨words, top, inside⟩
  exact .of_dite rfl (fun _ => rfl) fun _ => rfl

/-- Replacing a word writes one word. -/
theorem set_keeps_capacity (index : Nat) (value : Value) : Keeps capacity (set index value) := by
  rintro ⟨words, top, inside⟩
  exact .of_dite rfl (fun live => Array.size_set live.2) fun _ => rfl

end Stack

namespace Machine

open BytecodeMachine.Action

variable {σ α γ : Type} {instruction : Instruction} {part : Machine σ → γ}

/-- What is done on the stack ends as it does on the stack alone. -/
theorem onStack_ends {action : Action Stack α} {m : Machine σ} {done : α → Machine σ → Prop}
    {failed : Fault → Machine σ → Prop}
    (ends : action.Ends m.stack (fun a stack => done a { m with stack })
      fun cause stack => failed cause { m with stack }) : (onStack action).Ends m done failed := by
  unfold Ends at ends
  simp only [Ends, onStack]
  cases ended : action m.stack <;> rw [ended] at ends <;> exact ends

/-- What holds of the host after an action holds of the machine with this host. -/
theorem onHost_ends {action : Action σ α} {m : Machine σ} {done : α → Machine σ → Prop}
    {failed : Fault → Machine σ → Prop}
    (ends : action.Ends m.host (fun a host => done a { m with host })
      fun cause host => failed cause { m with host }) : (onHost action).Ends m done failed := by
  unfold Ends at ends
  simp only [Ends, onHost]
  cases ended : action m.host <;> rw [ended] at ends <;> exact ends

/-- What the host does keeps a part that does not depend on the host. -/
theorem onHost_keeps (same : ∀ m host, part { m with host } = part m) (action : Action σ α) :
    Keeps part (onHost action) := by
  intro m
  apply onHost_ends
  unfold Ends
  cases action m.host <;> exact same m _

/-- A part of a machine that does not depend on anything the instruction may change. -/
structure OutOfReach (instruction : Instruction) (part : Machine σ → γ) : Prop where
  stack : ∀ m stack, Stack.capacity stack = m.stack.capacity → part { m with stack } = part m
  host : instruction.isRequest → ∀ m host, part { m with host } = part m
  next : instruction.isJump → ∀ m next, part { m with next } = part m
  globals : instruction.isStore → ∀ m globals, globals.size = m.globals.size →
    part { m with globals } = part m
  line : instruction.isLine → ∀ m line, part { m with line } = part m
  running : instruction.isTransfer → ∀ m frame depth, part { m with frame, depth } = part m

namespace OutOfReach

/-- Work on the stack that keeps the size of its storage is within reach of every instruction, so
it keeps the part. -/
theorem onStack (reach : OutOfReach instruction part) {action : Action Stack α}
    (keeps : Keeps Stack.capacity action) : Keeps part (Machine.onStack action) := by
  intro m
  apply onStack_ends
  apply (keeps m.stack).mono
  · intro _ stack same
    exact reach.stack m stack same
  · intro _ stack same
    exact reach.stack m stack same

/-- A request may replace the host by any other. -/
theorem onHost (reach : OutOfReach instruction part) (requests : instruction.isRequest)
    (action : Action σ α) : Keeps part (Machine.onHost action) :=
  onHost_keeps (reach.host requests) action

/-- A push keeps the size of the stack. -/
theorem push (reach : OutOfReach instruction part) (value : Value) :
    Keeps part (Machine.push value) := reach.onStack (Stack.push_keeps_capacity value)

/-- So does taking a word off. -/
theorem pop (reach : OutOfReach instruction part) :
    Keeps part (Machine.pop : Action (Machine σ) Value) :=
  reach.onStack Stack.pop_keeps_capacity

/-- A jump may go anywhere. -/
theorem jumpTo (reach : OutOfReach instruction part) (jumps : instruction.isJump) (offset : Nat) :
    Keeps part (Machine.jumpTo offset) := keeps_modify fun m => reach.next jumps m offset

/-- A transfer may move the frame pointer, whatever the depth. -/
theorem setFrame (reach : OutOfReach instruction part) (transfers : instruction.isTransfer)
    (index : Nat) : Keeps part (Machine.setFrame index) :=
  keeps_modify fun m => reach.running transfers m index m.depth

/-- A store may overwrite a global. Their number stays, since a write outside is refused. -/
theorem writeGlobal (reach : OutOfReach instruction part) (stores : instruction.isStore)
    (index : Nat) (value : Value) : Keeps part (Machine.writeGlobal index value) := by
  intro m
  by_cases inside : index < m.globals.size
  · simp only [Ends, Machine.writeGlobal, inside, if_true]
    exact reach.globals stores m _ (Array.size_setIfInBounds ..)
  · simp only [Ends, Machine.writeGlobal, inside, if_false]

/-- Gathering words works on the stack, and has the host make an object of them. -/
theorem gather (reach : OutOfReach instruction part) (requests : instruction.isRequest)
    (size : Nat) (make : Array Value → Action σ Ref) : Keeps part (Machine.gather size make) :=
  (reach.onStack (Stack.reverse_keeps_capacity size)).bind fun _ =>
    (keeps_observe _).bind fun _ => (reach.onHost requests _).bind fun _ =>
      (reach.onStack (Stack.drop_keeps_capacity size)).bind fun _ => reach.push _

/-- A branch takes a word, and then it jumps or it stays. -/
theorem branch (reach : OutOfReach instruction part) (jumps : instruction.isJump) (image : Image)
    (address : Int32) (fit : Int32 → Bool) : Keeps part (Machine.branch image address fit) := by
  refine reach.pop.bind fun word => (keeps_answer _).bind fun number => ?_
  split
  · exact (keeps_answer _).bind fun _ => reach.jumpTo jumps _
  · exact keeps_pure _

/-- An entry puts the linkage and the locals on the stack and moves the frame pointer. -/
theorem enter (reach : OutOfReach instruction part) (transfers : instruction.isTransfer)
    (locals : Nat) : Keeps part (Machine.enter locals) :=
  keeps_get.bind fun _ => (reach.push _).bind fun _ => keeps_get.bind fun _ =>
    (reach.setFrame transfers _).bind fun _ => reach.onStack (Stack.reserve_keeps_capacity locals)

/-- A call works on the stack, counts one more activation and goes on at the entry. -/
theorem call (reach : OutOfReach instruction part) (transfers : instruction.isTransfer)
    (jumps : instruction.isJump) (entry arguments dropped : Nat) :
    Keeps part (Machine.call entry arguments dropped) := by
  refine (reach.onStack (Stack.reverse_keeps_capacity arguments)).bind fun _ =>
    keeps_get.bind fun _ => (keeps_answer _).bind fun _ => (reach.push _).bind fun _ =>
      (keeps_answer _).bind fun _ => (reach.push _).bind fun _ => keeps_modify fun m => ?_
  exact (reach.running transfers { m with next := entry } m.frame (m.depth + 1)).trans
    (reach.next jumps m entry)

/-- The saved frame pointer is a word that is taken off and checked. -/
theorem popLink (reach : OutOfReach instruction part) :
    Keeps part (Machine.popLink : Action (Machine σ) Nat) := by
  refine reach.pop.bind fun _ => (keeps_answer _).bind fun _ => keeps_get.bind fun _ => ?_
  split
  · exact keeps_pure _
  · exact keeps_throw _

/-- So is the number of arguments. -/
theorem popArgumentCount (reach : OutOfReach instruction part) :
    Keeps part (Machine.popArgumentCount : Action (Machine σ) Nat) := by
  refine reach.pop.bind fun _ => (keeps_answer _).bind fun _ => ?_
  split
  · exact (keeps_throw _).bind fun _ => keeps_pure _
  · exact keeps_pure _

/-- So is the address to return to. -/
theorem popReturn (reach : OutOfReach instruction part) :
    Keeps part (Machine.popReturn : Action (Machine σ) Int32) :=
  reach.pop.bind fun _ => keeps_answer _

/-- Leaving takes the linkage off the stack, piece by piece, restores the frame pointer, and stops
or goes back. Every piece is within reach of a transfer that jumps. -/
theorem leave (reach : OutOfReach instruction part) (transfers : instruction.isTransfer)
    (jumps : instruction.isJump) (image : Image) : Keeps part (Machine.leave image) := by
  refine reach.pop.bind fun _ => keeps_get.bind fun _ =>
    (reach.onStack (Stack.setTop_keeps_capacity _)).bind fun _ => reach.popLink.bind fun _ =>
      reach.popArgumentCount.bind fun _ => reach.popReturn.bind fun _ =>
        (reach.onStack (Stack.drop_keeps_capacity _)).bind fun _ => (reach.push _).bind fun _ =>
          (reach.setFrame transfers _).bind fun _ => ?_
  split
  · exact keeps_pure _
  · refine (keeps_answer _).bind fun offset => (keeps_modify fun m => ?_).bind fun _ => keeps_pure _
    exact (reach.running transfers { m with next := offset } m.frame (m.depth - 1)).trans
      (reach.next jumps m offset)

variable [Host σ]

/-- A place is a global, a word of the stack or a field of an object, and a store reaches all
three. -/
theorem writeSlot (reach : OutOfReach instruction part) (stores : instruction.isStore)
    (place : Slot) (value : Value) : Keeps part (Machine.writeSlot place value) := by
  cases place with
  | global index => exact reach.writeGlobal stores index value
  | stack index => exact reach.onStack (Stack.set_keeps_capacity index value)
  | field object index => exact reach.onHost (Instruction.isRequest_of_isStore stores) _

/-- Storing through a word writes to the place that the word is. Other words are refused. -/
theorem storeThrough (reach : OutOfReach instruction part) (stores : instruction.isStore)
    (target value : Value) : Keeps part (Machine.storeThrough target value) := by
  cases target with
  | slot place => exact reach.writeSlot stores place value
  | scalar number => exact keeps_throw _
  | ref object => exact keeps_throw _

/-- Storing by container and index takes three words and has the host write, or takes two and
stores through a place. -/
theorem storeElement (reach : OutOfReach instruction part) (stores : instruction.isStore) :
    Keeps part (Machine.storeElement : Action (Machine σ) Unit) := by
  have requests := Instruction.isRequest_of_isStore stores
  refine reach.pop.bind fun value => reach.pop.bind fun target => ?_
  cases target with
  | scalar index =>
    exact reach.pop.bind fun _ => (reach.onHost requests _).bind fun _ => reach.push _
  | ref object => exact (reach.storeThrough stores _ _).bind fun _ => reach.push _
  | slot place => exact (reach.storeThrough stores _ _).bind fun _ => reach.push _

/-- A pattern takes a word, or two of them, and asks the host about it without changing the
host. -/
theorem test (reach : OutOfReach instruction part) (pattern : Pattern) :
    Keeps part (Machine.test pattern : Action (Machine σ) Unit) := by
  cases pattern with
  | sameString =>
    refine reach.pop.bind fun _ => reach.pop.bind fun _ => ?_
    exact (keeps_observe _).bind fun _ => reach.push _
  | _ => exact reach.pop.bind fun _ => keeps_get.bind fun _ => reach.push _

/-- Calling a closure looks for it under its arguments and asks the host for its entry. The rest is
a call. -/
theorem callClosure (reach : OutOfReach instruction part) (transfers : instruction.isTransfer)
    (jumps : instruction.isJump) (image : Image) (arguments : Nat) :
    Keeps part (Machine.callClosure image arguments) :=
  (keeps_observe _).bind fun _ => (keeps_answer _).bind fun _ => (keeps_observe _).bind fun _ =>
    (keeps_answer _).bind fun _ => reach.call transfers jumps _ _ _

end OutOfReach

/-- Which function runs is out of reach unless the instruction changes it. -/
theorem running_outOfReach (ordinary : instruction.isTransfer = false) :
    OutOfReach instruction fun m : Machine σ => (m.frame, m.depth) where
  stack _ _ _ := rfl
  host _ _ _ := rfl
  next _ _ _ := rfl
  globals _ _ _ _ := rfl
  line _ _ _ := rfl
  running transfers := by simp [ordinary] at transfers

/-- The size of the stack's storage is the one thing about the stack that all work on it keeps, and
nothing else touches it. -/
theorem capacity_outOfReach (instruction : Instruction) :
    OutOfReach instruction fun m : Machine σ => m.stack.capacity where
  stack _ _ same := same
  host _ _ _ := rfl
  next _ _ _ := rfl
  globals _ _ _ _ := rfl
  line _ _ _ := rfl
  running _ _ _ _ := rfl

/-- What depends on the stack by its size alone is out of reach for an instruction that only
drops a word, and so for every operation on the stack. -/
theorem outOfReach_of_stack
    (aside : ∀ m stack, Stack.capacity stack = m.stack.capacity → part { m with stack } = part m) :
    OutOfReach .drop part where
  stack := aside
  host requests := by cases requests
  next jumps := by cases jumps
  globals stores := by cases stores
  line marks := by cases marks
  running transfers := by cases transfers

variable [Host σ]

/-- An instruction keeps what is out of its reach, also when it faults. Proof: by cases on the
instruction, each of which is a sequence of parts. Every part keeps what is out of reach, by the
lemmas above, and so does the sequence. -/
theorem execute_keeps (reach : OutOfReach instruction part) (image : Image) :
    Keeps part (execute image instruction) := by
  cases instruction with
  | binary operator =>
    exact reach.pop.bind fun _ => reach.pop.bind fun _ => (keeps_answer _).bind fun _ =>
      (reach.push _).bind fun _ => keeps_pure _
  | constant number => exact (reach.push _).bind fun _ => keeps_pure _
  | string offset =>
    exact (keeps_answer _).bind fun _ => (reach.onHost rfl _).bind fun _ =>
      (reach.push _).bind fun _ => keeps_pure _
  | aggregate name arity =>
    refine (keeps_answer _).bind fun _ => (keeps_answer _).bind fun _ => ?_
    refine (keeps_observe _).bind fun _ => ?_
    exact (reach.gather rfl _ _).bind fun _ => keeps_pure _
  | storeThrough =>
    exact reach.pop.bind fun _ => reach.pop.bind fun _ => (reach.storeThrough rfl _ _).bind fun _ =>
      (reach.push _).bind fun _ => keeps_pure _
  | storeElement => exact (reach.storeElement rfl).bind fun _ => keeps_pure _
  | jump address =>
    exact (keeps_answer _).bind fun _ => (reach.jumpTo rfl _).bind fun _ => keeps_pure _
  | leave => exact reach.leave rfl rfl image
  | ret => exact keeps_throw _
  | drop => exact reach.pop.bind fun _ => keeps_pure _
  | duplicate => exact (keeps_observe _).bind fun _ => (reach.push _).bind fun _ => keeps_pure _
  | swap =>
    exact reach.pop.bind fun _ => reach.pop.bind fun _ => (reach.push _).bind fun _ =>
      (reach.push _).bind fun _ => keeps_pure _
  | element =>
    exact reach.pop.bind fun _ => (keeps_answer _).bind fun _ => reach.pop.bind fun _ =>
      (keeps_observe _).bind fun _ => (reach.push _).bind fun _ => keeps_pure _
  | load name =>
    exact (keeps_observe _).bind fun _ => (reach.push _).bind fun _ => keeps_pure _
  | loadPlace name =>
    exact (keeps_observe _).bind fun _ => (reach.push _).bind fun _ => keeps_pure _
  | store name =>
    exact (keeps_observe _).bind fun _ => ((keeps_observe _).bind fun _ =>
      (reach.writeSlot rfl _ _).during _).bind fun _ => keeps_pure _
  | jumpIfZero address => exact (reach.branch rfl _ _ _).bind fun _ => keeps_pure _
  | jumpUnlessZero address => exact (reach.branch rfl _ _ _).bind fun _ => keeps_pure _
  | enter arguments locals =>
    exact (keeps_answer _).bind fun _ => (reach.enter rfl _).bind fun _ => keeps_pure _
  | enterClosure arguments locals =>
    exact (keeps_answer _).bind fun _ => (reach.enter rfl _).bind fun _ => keeps_pure _
  | closure address captured =>
    refine (keeps_answer _).bind fun _ => (keeps_observe _).bind fun _ => ?_
    exact (reach.onHost rfl _).bind fun _ => (reach.push _).bind fun _ => keeps_pure _
  | callClosure arguments =>
    exact (keeps_answer _).bind fun _ => (reach.callClosure rfl rfl _ _).bind fun _ => keeps_pure _
  | call address arguments =>
    exact (keeps_answer _).bind fun _ => (keeps_answer _).bind fun _ =>
      (reach.call rfl rfl _ _ _).bind fun _ => keeps_pure _
  | matchAggregate name arity =>
    refine (keeps_answer _).bind fun _ => (keeps_observe _).bind fun _ => ?_
    refine reach.pop.bind fun _ => (keeps_answer _).bind fun _ => ?_
    exact keeps_get.bind fun _ => (reach.push _).bind fun _ => keeps_pure _
  | matchArray length =>
    exact reach.pop.bind fun _ => (keeps_answer _).bind fun _ => keeps_get.bind fun _ =>
      (reach.push _).bind fun _ => keeps_pure _
  | failure line column => exact keeps_throw _
  | line number =>
    exact (keeps_modify fun m => reach.line rfl m (some number)).bind fun _ => keeps_pure _
  | test pattern => exact (reach.test _).bind fun _ => keeps_pure _
  | readNumber => exact (reach.onHost rfl _).bind fun _ => (reach.push _).bind fun _ => keeps_pure _
  | writeNumber =>
    exact reach.pop.bind fun _ => (keeps_answer _).bind fun _ => (reach.onHost rfl _).bind fun _ =>
      (reach.push _).bind fun _ => keeps_pure _
  | length =>
    exact reach.pop.bind fun _ => (keeps_observe _).bind fun _ => (reach.push _).bind fun _ =>
      keeps_pure _
  | print =>
    exact reach.pop.bind fun _ => (reach.onHost rfl _).bind fun _ => (reach.push _).bind fun _ =>
      keeps_pure _
  | array length =>
    exact (keeps_answer _).bind fun _ => (reach.gather rfl _ _).bind fun _ => keeps_pure _
  | stop => exact keeps_pure _

end Machine

end BytecodeMachine
