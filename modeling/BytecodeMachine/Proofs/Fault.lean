import BytecodeMachine.Console
import BytecodeMachine.Image
import BytecodeMachine.Machine.Arithmetic
import BytecodeMachine.Proofs.Action
import BytecodeMachine.Proofs.Instruction.Parts
import BytecodeMachine.Stack
import BytecodeMachine.Tag
/-!
# Where a fault may come from

Of all faults one is singled out here: that a reference leads nowhere. Only the heap can
raise it, and only for a reference it is given. Everything that is not given references,
which is the console, the decoder, the image, tags, numbers and the stack, raises others.

`Gives` says of an answer what holds of it if it is one, and that it is not this fault
otherwise. `Clean` says of an action that it never ends in this fault.
-/
namespace BytecodeMachine

/-- Whether a fault is at bottom that of a reference that leads nowhere. -/
def Fault.isDangling : Fault → Bool
  | .heap (.dangling _) => true
  | .during _ cause => cause.isDangling
  | _ => false

namespace Answer

variable {α β : Type} {given : Answer α} {holds : α → Prop}

/-- If there is an answer, this holds of it; otherwise no reference is to blame. -/
def Gives (given : Answer α) (holds : α → Prop) : Prop :=
  given.Ends holds fun cause => cause.isDangling = false

/-- An answer gives what holds of it. -/
theorem gives_ok {a : α} (now : holds a) : Gives (.ok a) holds := now

/-- A fault other than a reference that leads nowhere is always allowed. -/
theorem gives_error {cause : Fault} (other : cause.isDangling = false) :
    Gives (.error cause : Answer α) holds := other

/-- What the second part gives at every answer that the first part may have, the whole gives. A
fault of the first part is the fault of the whole and was allowed there. -/
theorem Gives.bind {next : α → Answer β} {then' : β → Prop} (first : given.Gives holds)
    (later : ∀ a, holds a → (next a).Gives then') : (given >>= next).Gives then' := by
  cases given with
  | ok a => exact later a first
  | error cause => exact first

/-- What is said of the answer may be weakened; faults are not affected. -/
theorem Gives.mono {weaker : α → Prop} (gives : given.Gives holds)
    (implies : ∀ a, holds a → weaker a) : given.Gives weaker := by
  cases given with
  | ok a => exact implies a gives
  | error cause => exact gives

/-- A context says what was being done, it does not change what has gone wrong. -/
theorem Gives.during (context : Context) (gives : given.Gives holds) :
    (Answer.during context given).Gives holds := by
  cases given with
  | ok a => exact gives
  | error cause => exact gives

/-- A fault that is handed on is the same fault. -/
theorem Gives.handOn {cause : Fault} {then' : β → Prop} (gives : given.Gives holds)
    (failed : given = .error cause) : Gives (.error cause) then' := by
  subst failed
  exact gives

/-- What an answer gives may say that it is the answer. -/
theorem Gives.known (gives : given.Gives holds) :
    given.Gives fun a => given = .ok a ∧ holds a := by
  cases given with
  | ok a => exact ⟨rfl, gives⟩
  | error cause => exact gives

end Answer

/-- Asking a word for its number gives the number of which it is made. The refusal names the sort
of the word and no reference. -/
theorem Value.expectScalar_gives (value : Value) :
    value.expectScalar.Gives fun number => value = .scalar number := by
  cases value with
  | scalar number => exact Answer.gives_ok rfl
  | ref object => exact Answer.gives_error rfl
  | slot place => exact Answer.gives_error rfl

/-- Asking a word for its reference gives the reference of which it is made. -/
theorem Value.expectRef_gives (value : Value) :
    value.expectRef.Gives fun object => value = .ref object := by
  cases value with
  | ref object => exact Answer.gives_ok rfl
  | scalar number => exact Answer.gives_error rfl
  | slot place => exact Answer.gives_error rfl

/-- A size becomes the signed number of the same value, or is too large. -/
theorem int32OfNat_gives (size : Nat) :
    (int32OfNat size).Gives fun number => number = Int32.ofNat size := by
  unfold int32OfNat
  split
  · exact Answer.gives_ok rfl
  · exact Answer.gives_error rfl

/-- Asking an image for a string looks at its string table and at no heap, so neither refusal is a
reference that leads nowhere. -/
theorem Image.stringAt_gives (image : Image) (offset : Int32) :
    (image.stringAt offset).Gives fun _ => True := by
  unfold stringAt
  split
  · split
    · exact Answer.gives_ok trivial
    · exact Answer.gives_error rfl
  · exact Answer.gives_error rfl

/-- The results of operators are numbers that have been wrapped, or truth values. Division and
remainder are refused for a divisor that is zero, which involves no reference. -/
theorem Operator.onNumbers_gives (operator : Operator) (a b : Int32) :
    (operator.onNumbers a b).Gives fun value =>
      (∃ number, value = .ofInt number) ∨ ∃ flag, value = .ofBool flag := by
  cases operator with
  | add => exact Answer.gives_ok (.inl ⟨_, rfl⟩)
  | sub => exact Answer.gives_ok (.inl ⟨_, rfl⟩)
  | mul => exact Answer.gives_ok (.inl ⟨_, rfl⟩)
  | div =>
    simp only [onNumbers]
    split
    · exact Answer.gives_error rfl
    · exact Answer.gives_ok (.inl ⟨_, rfl⟩)
  | mod =>
    simp only [onNumbers]
    split
    · exact Answer.gives_error rfl
    · exact Answer.gives_ok (.inl ⟨_, rfl⟩)
  | _ => exact Answer.gives_ok (.inr ⟨_, rfl⟩)

/-- An operator gives a number that has been wrapped into 31 bits, or a truth value. Comparing
references for equality cannot fail; otherwise both operands are asked for their numbers first. -/
theorem Operator.apply_gives (operator : Operator) (x y : Value) :
    (operator.apply x y).Gives fun value =>
      (∃ number, value = .ofInt number) ∨ ∃ flag, value = .ofBool flag := by
  unfold apply
  split
  · exact Answer.gives_ok (.inr ⟨_, rfl⟩)
  · exact Answer.gives_ok (.inr ⟨_, rfl⟩)
  · exact ((x.expectScalar_gives).during _).bind fun a _ =>
      ((y.expectScalar_gives).during _).bind fun b _ => operator.onNumbers_gives a b

/-- Reading at an index gives one of the words that are stored. -/
theorem Stack.get_gives (stack : Stack) (index : Nat) :
    (stack.get index).Gives fun word => word ∈ stack.words := by
  unfold get
  split
  · exact Answer.gives_ok (Array.getElem_mem _)
  · exact Answer.gives_error rfl

/-- Peeking gives one of the words that are stored. -/
theorem Stack.peek_gives (stack : Stack) (depth : Nat) :
    (stack.peek depth).Gives fun word => word ∈ stack.words := by
  unfold peek
  split
  · exact Answer.gives_ok (Array.getElem_mem _)
  · exact Answer.gives_error rfl

/-- The words of a window are among those that are stored, each at its index. -/
theorem Stack.window_gives (stack : Stack) (count : Nat) :
    (stack.window count).Gives fun words => ∀ word ∈ words, word ∈ stack.words := by
  unfold window
  split
  · refine Answer.gives_ok fun word member => ?_
    obtain ⟨index, _, rfl⟩ := Array.mem_extract_iff_getElem.mp member
    exact Array.getElem_mem _
  · exact Answer.gives_error rfl

/-- Packing fails only at a character that has no code, so no reference is to blame. Proof:
induction on the name, with what has been packed so far. -/
theorem Tag.pack_gives (packed : Nat) (name : List UInt8) :
    (Tag.pack packed name).Gives fun _ => True := by
  induction name generalizing packed with
  | nil => exact Answer.gives_ok trivial
  | cons b rest later =>
    unfold Tag.pack
    split
    · exact Answer.gives_error rfl
    · exact later _

/-- A name fails to have a tag because it cannot be packed or because its tag spells something
else. -/
theorem Tag.ofName_gives (name : List UInt8) : (Tag.ofName name).Gives fun _ => True := by
  have packed := Tag.pack_gives 0 (name.take Tag.length)
  unfold Tag.ofName
  split
  · next failed => exact packed.handOn failed
  · dsimp only
    split
    · exact Answer.gives_ok trivial
    · exact Answer.gives_error rfl

namespace Action

variable {σ α β : Type}

/-- The action never ends in a fault for which a reference is to blame. -/
def Clean (action : Action σ α) : Prop :=
  ∀ s, action.Ends s (fun _ _ => True) fun cause _ => cause.isDangling = false

/-- A sequence of clean actions is clean. -/
theorem Clean.bind {first : Action σ α} {next : α → Action σ β} (firstClean : Clean first)
    (nextClean : ∀ a, Clean (next a)) : Clean (first >>= next) := fun s =>
  (firstClean s).bind fun a t _ => nextClean a t

/-- A context does not change which fault it is wrapped around, and the test looks through it. So
an action that is clean stays clean in any context. -/
theorem Clean.during {action : Action σ α} (context : Context) (clean : Clean action) :
    Clean (action.during context) := by
  intro s
  have before := clean s
  unfold Ends at before ⊢
  unfold Action.during
  cases ended : action s with
  | ok a t => trivial
  | error cause t =>
    rw [ended] at before
    exact before

/-- Answering alone has no fault at all. -/
theorem clean_pure (a : α) : Clean (pure a : Action σ α) := fun _ => trivial

/-- Looking at the whole state has none either. -/
theorem clean_get : Clean (get : Action σ σ) := fun _ => trivial

/-- Faulting is clean if the fault is of another kind. -/
theorem clean_throw {cause : Fault} (other : cause.isDangling = false) :
    Clean (throw cause : Action σ α) := fun _ => other

/-- A given answer is clean if its fault, should it be one, is of another kind. -/
theorem clean_answer {given : Answer α} {holds : α → Prop} (gives : given.Gives holds) :
    Clean (answer given : Action σ α) := by
  intro s
  cases given with
  | ok a => trivial
  | error cause => exact gives

end Action

namespace Console

open BytecodeMachine.Action

/-- Writing can find the output full, and nothing else. It does so where there is a bound and the
bytes do not all fit. -/
theorem write_clean (bytes : List UInt8) : Clean (write bytes) := by
  intro console
  unfold Ends write
  cases console.sink.room with
  | none =>
    simp
  | some room =>
    dsimp only
    by_cases short : (bytes.take (room - console.output.size)).length < bytes.length <;>
      simp only [short, if_true, if_false, Fault.isDangling]

/-- Flushing can be refused, and nothing else. -/
theorem flush_clean : Clean flush := by
  intro console
  unfold Ends flush
  by_cases refuses : console.sink.refusesFlush <;> simp [refuses, Fault.isDangling]

/-- A line is split into words unless it is not text. -/
theorem lineWords_gives (line : List UInt8) : (lineWords line).Gives fun _ => True := by
  unfold lineWords
  split
  · exact Answer.gives_ok trivial
  · exact Answer.gives_error rfl

/-- Reading a line that has words fails at the end of the input or at a line that is not text. The
induction follows the lines that are skipped because they are blank. -/
theorem readLine_gives (input : List UInt8) : (readLine input).1.Gives fun _ => True := by
  induction input using readLine.induct with
  | case1 =>
    rw [readLine]
    exact Answer.gives_error rfl
  | case2 b rest shorter blank later =>
    rw [readLine, blank]
    exact later
  | case3 b rest shorter ended =>
    rw [readLine]
    split
    · next blank => exact absurd blank ended
    · exact lineWords_gives _

/-- The next word is pending, or the first one of the next line that has any. A pending word needs
no input, and a line that cannot be read is not the fault of a reference. -/
theorem nextWord_clean : Clean nextWord := by
  intro console
  have line := readLine_gives console.input
  unfold Ends nextWord
  cases console.pending with
  | cons word rest => trivial
  | nil =>
    cases read : readLine console.input with
    | mk answer input =>
      rw [read] at line
      cases answer with
      | error cause => exact line
      | ok words => cases words <;> trivial

/-- A word is a number or is refused as none. -/
theorem parse_gives (word : String) : (parse word).Gives fun _ => True := by
  unfold parse
  split
  · exact Answer.gives_ok trivial
  · exact Answer.gives_error rfl

/-- Asking for a number prompts, flushes, takes a word and reads it, and each of these is clean. -/
theorem readNumber_clean : Clean readNumber :=
  ((write_clean _).during _).bind fun _ => (flush_clean.during _).bind fun _ =>
    nextWord_clean.bind fun word => clean_answer (parse_gives word)

/-- Writing a number writes a line and flushes, and both are clean. -/
theorem writeNumber_clean (number : Int32) : Clean (writeNumber number) :=
  ((write_clean _).during _).bind fun _ => flush_clean.during _

end Console

namespace Cursor

open BytecodeMachine.Action

/-- Reading a byte fails only at the end of the code. -/
theorem byte_clean : Clean byte := by
  intro cursor
  unfold Ends byte
  by_cases inside : cursor.pos < cursor.code.size <;> simp [inside, Fault.isDangling]

/-- Reading a number fails only at the end of the code. -/
theorem number_clean : Clean number := by
  intro cursor
  unfold Ends number
  by_cases inside : cursor.pos + 4 ≤ cursor.code.size <;> simp [inside, Fault.isDangling]

/-- So reading an instruction, which is put together from these two, is clean in all its parts. -/
theorem clean_parts : HoldsOfParts fun _ action => Clean action where
  holds_byte := byte_clean
  holds_number := number_clean
  holds_get := clean_get
  holds_pure := clean_pure
  holds_throw _ := clean_throw rfl
  holds_bind := Clean.bind

end Cursor

/-- What cannot be decoded is a fault of the code. -/
theorem Instruction.read_clean : Action.Clean read := Cursor.clean_parts.holds_read

end BytecodeMachine
