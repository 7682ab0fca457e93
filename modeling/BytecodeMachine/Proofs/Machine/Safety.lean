import BytecodeMachine.Proofs.Machine.Sound
import BytecodeMachine.Proofs.Size
import BytecodeMachine.Proofs.Stack
/-!
# Every instruction is safe

An instruction takes words from a sound machine and puts back words that it has taken, that it
has read in the machine, that lead to an object it has just made, or that are new numbers.
So the machine is sound afterwards, and it is sound when the instruction faults on the way.

Which numbers are new is a premise: results are wrapped, and calls and entries keep the
registers on the stack.
-/
namespace BytecodeMachine

/-- How many objects an instruction makes if it succeeds. -/
def Instruction.allocated : Instruction → Nat
  | .string _ | .aggregate _ _ | .closure _ _ | .print | .array _ => 1
  | _ => 0

namespace Machine

open BytecodeMachine.Action

variable {number : Int32 → Prop} {objects declared : Nat} {m : Machine Workspace}

section Words

variable (boxed : ∀ k, number (Word.unbox (Word.box k)))
include boxed

/-- A number brought into range is admitted, by the assumption on boxed numbers. -/
theorem sound_ofInt (k : Int32) : (Value.ofInt k).Sound number objects declared := boxed k

/-- Zero is the boxed zero. -/
theorem sound_zero : Value.zero.Sound number objects declared := by
  have zero : Word.unbox (Word.box 0) = 0 := by decide
  have admitted := boxed 0
  rwa [zero] at admitted

/-- Truth values are zero and one, both boxed. -/
theorem sound_ofBool (flag : Bool) : (Value.ofBool flag).Sound number objects declared := by
  have one : Word.unbox (Word.box 1) = 1 := by decide
  have admitted := boxed 1
  rw [one] at admitted
  cases flag with
  | false => exact sound_zero boxed
  | true => exact admitted

/-- A byte is a number that has been boxed. -/
theorem sound_ofByte (b : UInt8) : (Value.ofByte b).Sound number objects declared := boxed _

end Words

/-- Counting the arguments reads the stack only, so no reference is followed. -/
theorem argumentCount_gives (m : Machine Workspace) : m.argumentCount.Gives fun _ => True := by
  refine (m.stack.get_gives _).bind fun word _ => ?_
  refine (word.expectScalar_gives.during _).bind fun k _ => ?_
  split
  · exact Answer.gives_error rfl
  · exact Answer.gives_ok trivial

/-- The running closure is a word of the stack. If it is a reference then it is one to an object
that is there, as every word of a sound machine is. -/
theorem runningClosure_gives (sound : Sound number objects declared m) :
    m.runningClosure.Gives fun object => object.index < objects := by
  have reads (count : Nat) : Answer.Gives (do
      let word ← m.stack.get (m.frame + 3 + (count - 1))
      Answer.during .lastArgument word.expectRef) fun object => object.index < objects := by
    refine (m.stack.get_gives _).bind fun word member => (word.expectRef_gives.mono ?_).during _
    rintro object rfl
    exact sound.stack _ member
  refine m.argumentCount_gives.bind fun count _ => ?_
  split
  · exact Answer.gives_error rfl
  · exact reads count

/-- Places are only made for variables that are declared, and for captures of what runs. The
running object is there, and a captured variable is never its first raw field. -/
theorem place_gives (sound : Sound number objects declared m) (name : Variable) :
    (m.place name).Gives (Slot.Sound objects declared) := by
  obtain ⟨storage, index⟩ := name
  unfold place
  by_cases negative : index < 0
  · simp only [negative, if_true]
    cases storage <;> exact Answer.gives_error rfl
  · simp only [negative, if_false]
    cases storage with
    | globals =>
      dsimp only
      split
      · next inside =>
        rw [sound.globals_eq] at inside
        exact Answer.gives_ok inside
      · exact Answer.gives_error rfl
    | locals =>
      dsimp only
      split
      · exact Answer.gives_ok trivial
      · exact Answer.gives_error rfl
    | arguments => exact Answer.gives_ok trivial
    | captures =>
      exact (runningClosure_gives sound).bind fun object inside =>
        Answer.gives_ok ⟨inside, Nat.le_add_left 1 _⟩

/-- What a place holds is sound: a global and a stack word by the invariant, and a field as a word
that some object holds, or a byte. -/
theorem readSlot_gives (boxed : ∀ k, number (Word.unbox (Word.box k)))
    (sound : Sound number objects declared m) {place : Slot}
    (there : place.Sound objects declared) :
    (m.readSlot place).Gives (Value.Sound number objects declared) := by
  cases place with
  | global index =>
    simp only [readSlot]
    split
    · next value found => exact Answer.gives_ok (sound.globals _ (Array.mem_of_getElem? found))
    · exact Answer.gives_error rfl
  | stack index => exact (m.stack.get_gives index).mono fun word member => sound.stack word member
  | field object index =>
    refine Heap.field_gives sound.heap (fun b => sound_ofByte boxed b) ?_ there.2
    rw [sound.objects_eq]
    exact there.1

/-- The place of a variable may be, so what is loaded from it is sound. -/
theorem load_gives (boxed : ∀ k, number (Word.unbox (Word.box k)))
    (sound : Sound number objects declared m) (name : Variable) :
    (m.load name).Gives (Value.Sound number objects declared) :=
  (place_gives sound name).bind fun _ there => (readSlot_gives boxed sound there).during _

/-- By induction on the variables, all that is loaded is sound, as each of the words is. The
machine does not change from one variable to the next. -/
theorem loadAll_gives (boxed : ∀ k, number (Word.unbox (Word.box k)))
    (sound : Sound number objects declared m) (names : List Variable) :
    (m.loadAll names).Gives fun values => ∀ word ∈ values, word.Sound number objects declared := by
  induction names with
  | nil => exact Answer.gives_ok fun _ none => absurd none List.not_mem_nil
  | cons name rest later =>
    refine (load_gives boxed sound name).bind fun value first => later.bind fun values others => ?_
    refine Answer.gives_ok fun word member => ?_
    rcases List.mem_cons.mp member with rfl | member
    · exact first
    · exact others word member

/-- An operand that is no count is refused for its value. -/
theorem count_gives (operand : Int32) : (count operand).Gives fun _ => True := by
  unfold count
  split
  · exact Answer.gives_error rfl
  · exact Answer.gives_ok trivial

/-- An address outside the code is refused for its value, and one that is not refused is inside. -/
theorem target_gives (image : Image) (address : Int32) :
    (target image address).Gives fun offset => offset < image.code.size := by
  unfold target
  split
  · next inside => exact Answer.gives_ok inside.2
  · exact Answer.gives_error rfl

section Actions

variable {value : Value}

/-- Jumping changes the next offset, which has to be admitted as it may be pushed later. -/
theorem safe_jumpTo {offset : Nat} (kept : number (Int32.ofNat offset)) :
    Safe number objects objects declared (jumpTo offset) fun _ => True :=
  safe_modify fun _ sound => ⟨sound.objects_eq, sound.globals_eq, sound.stack, sound.globals,
    sound.heap, sound.frame, kept, sound.sizes⟩

/-- Moving the frame pointer asks for the same. -/
theorem safe_setFrame {index : Nat} (kept : number (Int32.ofNat index)) :
    Safe number objects objects declared (setFrame index) fun _ => True :=
  safe_modify fun _ sound => ⟨sound.objects_eq, sound.globals_eq, sound.stack, sound.globals,
    sound.heap, kept, sound.next, sound.sizes⟩

/-- A sound word may be written to a global. An index that is outside is refused before anything is
changed. -/
theorem safe_writeGlobal (index : Nat) (given : value.Sound number objects declared) :
    Safe number objects objects declared (writeGlobal index value) fun _ => True := by
  intro m sound
  by_cases inside : index < m.globals.size
  · simp only [Ends, writeGlobal, inside, if_true, and_true]
    refine ⟨sound.objects_eq, ?_, sound.stack, ?_, sound.heap, sound.frame, sound.next,
      sound.sizes⟩
    · exact (Array.size_setIfInBounds ..).trans sound.globals_eq
    · intro word member
      rcases Array.mem_or_eq_of_mem_setIfInBounds member with before | rfl
      · exact sound.globals word before
      · exact given
  · simp only [Ends, writeGlobal, inside, if_false]
    exact ⟨⟨objects, sound⟩, rfl⟩

/-- A sound word may be written to any place that may be, by cases on where the place is. -/
theorem safe_writeSlot {place : Slot} (there : place.Sound objects declared)
    (given : value.Sound number objects declared) :
    Safe number objects objects declared (writeSlot place value) fun _ => True := by
  cases place with
  | global index => exact safe_writeGlobal index given
  | stack index => exact safe_set index given
  | field object index => exact safe_setField index given there.1

/-- If the word stored through is a place then it is one that may be. -/
theorem safe_storeThrough {target : Value} (place : target.Sound number objects declared)
    (given : value.Sound number objects declared) :
    Safe number objects objects declared (storeThrough target value) fun _ => True := by
  cases target with
  | slot place' => exact safe_writeSlot place given
  | scalar k => exact safe_throw rfl
  | ref object => exact safe_throw rfl

/-- The place of a variable may be, and the word is written there. -/
theorem safe_store (name : Variable) (given : value.Sound number objects declared) :
    Safe number objects objects declared (store name value) fun _ => True :=
  (safe_observe fun _ sound => place_gives sound name).bind fun _ there =>
    (safe_writeSlot there given).during _

/-- All three words taken off the stack are sound. The container is a reference to an object that
is there, or the target is a place that may be. -/
theorem safe_storeElement :
    Safe number objects objects declared storeElement fun _ => True := by
  refine safe_pop.bind fun value given => safe_pop.bind fun target found => ?_
  cases target with
  | scalar index =>
    exact safe_pop.bind fun container held => (safe_setElement index given held).bind fun _ _ =>
      safe_push given
  | ref object => exact (safe_storeThrough found given).bind fun _ _ => safe_push given
  | slot place => exact (safe_storeThrough found given).bind fun _ _ => safe_push given

/-- What is gathered are words of the stack, and a reference to what is made of them is put in
their place. -/
theorem safe_gather (size : Nat) {make : Array Value → Action Workspace Ref}
    (makes : ∀ words, (∀ word ∈ words, word.Sound number objects declared) →
      Safe number objects (objects + 1) declared (onHost (make words))
        fun object => object.index < objects + 1) :
    Safe number objects (objects + 1) declared (gather size make) fun _ => True := by
  refine (safe_reverse size).bind fun _ _ => ?_
  have looks : Safe number objects objects declared
      (observe fun m : Machine Workspace => m.stack.window size)
      fun words => ∀ word ∈ words, word.Sound number objects declared :=
    safe_observe fun m sound => (m.stack.window_gives size).mono fun words members word member =>
      sound.stack word (members word member)
  refine looks.bind fun words given => (makes words given).bind fun object inside => ?_
  exact (safe_drop size).bind fun _ _ => safe_pushRef inside

/-- The target of a branch is inside the code, so its offset is admitted. The word that decides is
a number and is gone afterwards; the address is looked at only when the branch is taken. -/
theorem safe_branch (image : Image) (address : Int32) (fit : Int32 → Bool)
    (offsets : ∀ offset ≤ image.code.size, number (Int32.ofNat offset)) :
    Safe number objects objects declared (branch image address fit) fun _ => True := by
  refine safe_pop.bind fun word _ => (safe_answer (word.expectScalar_gives.during _)).bind
    fun k _ => ?_
  split
  · exact (safe_answer (target_gives image address)).bind fun offset inside =>
      safe_jumpTo (offsets offset (Nat.le_of_lt inside))
  · exact safe_pure trivial

/-- A pattern answers zero or one, after asking about words that are sound. Comparing strings takes
two words and every other pattern takes one; asking about them changes nothing. -/
theorem safe_test (boxed : ∀ k, number (Word.unbox (Word.box k))) (pattern : Pattern) :
    Safe number objects objects declared (test pattern) fun _ => True := by
  cases pattern with
  | sameString =>
    have looks (x y : Value) : Safe number objects objects declared
        (askHost (Host.sameString x y)) fun _ => True :=
      safe_observe fun _ _ => Answer.gives_ok trivial
    exact safe_pop.bind fun y _ => safe_pop.bind fun x _ => (looks x y).bind fun _ _ =>
      safe_push (sound_ofBool boxed _)
  | _ =>
    exact safe_pop.bind fun value _ => safe_get.bind fun _ _ => safe_push (sound_ofBool boxed _)

/-- A number that is read from a sound word is admitted. -/
theorem scalar_gives (context : Context) (given : value.Sound number objects declared) :
    (Answer.during context value.expectScalar).Gives number := by
  refine (value.expectScalar_gives.mono ?_).during _
  rintro k rfl
  exact given

/-- An entry pushes the frame pointer, which belongs to the invariant for this very reason, and
zeros. -/
theorem safe_enter (locals : Nat) :
    Safe number objects objects declared (enter locals) fun _ => True := by
  refine safe_get.bind fun m sound => (safe_pushNumber sound.frame).bind fun _ _ => ?_
  refine safe_get.bind fun m sound => ?_
  exact (safe_setFrame (sound.sizes _ m.stack.top_le)).bind fun _ _ => safe_reserve locals

/-- A call keeps the next offset and a number of words on the stack. The offset was admitted as a
register, and the number because so many words have just been reversed. -/
theorem safe_call {entry arguments dropped : Nat} (kept : number (Int32.ofNat entry))
    (size : number (Int32.ofNat arguments) → number (Int32.ofNat dropped)) :
    Safe number objects objects declared (call entry arguments dropped) fun _ => True := by
  refine (safe_reverse arguments).bind fun _ reversed => safe_get.bind fun m sound => ?_
  refine (safe_answer (int32OfNat_gives m.next)).bind ?_
  rintro _ rfl
  refine (safe_pushNumber sound.next).bind fun _ _ => ?_
  refine (safe_answer (int32OfNat_gives dropped)).bind ?_
  rintro _ rfl
  refine (safe_pushNumber (size reversed)).bind fun _ _ => safe_modify fun m sound => ?_
  exact ⟨sound.objects_eq, sound.globals_eq, sound.stack, sound.globals, sound.heap, sound.frame,
    kept, sound.sizes⟩

/-- A frame pointer that is taken off the stack was an admitted number, and stays one. The register
has the number itself, since it is not negative. -/
theorem safe_popLink :
    Safe number objects objects declared popLink fun pointer => number (Int32.ofNat pointer) := by
  refine safe_pop.bind fun word given => ?_
  refine (safe_answer (scalar_gives _ given)).bind fun k admitted => ?_
  refine safe_get.bind fun m _ => ?_
  split
  · next inside =>
    refine safe_pure ?_
    rw [ofNat_toNat inside.1]
    exact admitted
  · exact safe_throw rfl

/-- The number of arguments is a number or a fault that blames no reference. -/
theorem safe_popArgumentCount :
    Safe number objects objects declared popArgumentCount fun _ => True := by
  refine safe_pop.bind fun word given => (safe_answer (scalar_gives _ given)).bind fun k _ => ?_
  split
  · exact safe_throw rfl
  · exact safe_pure trivial

/-- So is the address to return to. -/
theorem safe_popReturn : Safe number objects objects declared popReturn fun _ => True :=
  safe_pop.bind fun _ given => (safe_answer (scalar_gives _ given)).mono fun _ _ => trivial

/-- Leaving restores a frame pointer that was admitted on the stack, and returns to an offset
inside the code or stops. The result goes back where the arguments were, and it was sound. -/
theorem safe_leave (image : Image)
    (offsets : ∀ offset ≤ image.code.size, number (Int32.ofNat offset)) :
    Safe number objects objects declared (leave image) fun _ => True := by
  refine safe_pop.bind fun result given => ?_
  refine safe_get.bind fun m _ => (safe_setTop _).bind fun _ _ => ?_
  refine safe_popLink.bind fun frame kept => safe_popArgumentCount.bind fun arguments _ => ?_
  refine safe_popReturn.bind fun address _ => (safe_drop arguments).bind fun _ _ => ?_
  refine (safe_push given).bind fun _ _ => (safe_setFrame kept).bind fun _ _ => ?_
  split
  · exact safe_pure trivial
  · refine (safe_answer ((target_gives image address).during _)).bind fun offset inside => ?_
    refine (safe_modify fun m sound => ?_).bind fun _ _ => safe_pure trivial
    exact ⟨sound.objects_eq, sound.globals_eq, sound.stack, sound.globals, sound.heap, sound.frame,
      offsets offset (Nat.le_of_lt inside), sound.sizes⟩

/-- The word under the arguments is sound, so a reference there leads to an object, whose entry
can be asked for. What is called is inside the code, and the call itself pushes registers and
numbers. -/
theorem safe_callClosure (image : Image) (arguments : Nat)
    (offsets : ∀ offset ≤ image.code.size, number (Int32.ofNat offset)) :
    Safe number objects objects declared (callClosure image arguments) fun _ => True := by
  have peeks : Safe number objects objects declared
      (observe fun m : Machine Workspace => m.stack.peek arguments)
      fun word => word.Sound number objects declared ∧ number (Int32.ofNat (arguments + 1)) := by
    refine safe_observe fun m sound => (m.stack.peek_gives arguments).known.mono ?_
    rintro word ⟨peeked, member⟩
    have inside := (Array.getElem?_eq_some_iff.mp (Stack.peek_eq_ok_iff.mp peeked)).1
    exact ⟨sound.stack word member, sound.sizes _ (by omega)⟩
  refine peeks.bind fun word ⟨given, size⟩ => ?_
  have reference : (Answer.during .calledWord word.expectRef).Gives fun closure =>
      closure.index < objects := by
    refine (word.expectRef_gives.mono ?_).during _
    rintro closure rfl
    exact given
  refine (safe_answer reference).bind fun closure inside => ?_
  have entries :
      Safe number objects objects declared (askHost (Host.entry closure)) fun _ => True :=
    safe_observe fun m sound => Heap.entry_gives (by rw [sound.objects_eq]; exact inside)
  have targets (entry : Nat) : Answer.Gives (do target image (← int32OfNat entry))
      fun offset => offset < image.code.size :=
    (int32OfNat_gives entry).bind fun _ _ => target_gives image _
  refine entries.bind fun entry _ => (safe_answer (targets entry)).bind fun offset inside => ?_
  exact safe_call (offsets offset (Nat.le_of_lt inside)) fun _ => size

end Actions

/-- Making a tag from a name follows no reference. -/
theorem safe_askTag (bytes : Array UInt8) :
    Safe number objects objects declared (askHost (Host.tag bytes)) fun _ => True :=
  safe_observe fun _ _ => Tag.ofName_gives bytes.toList

/-- Instructions keep machines sound and never fault for a reference that leads nowhere, provided
that wrapped numbers and offsets in the code are admitted. -/
theorem execute_safe (boxed : ∀ k, number (Word.unbox (Word.box k))) (image : Image)
    (offsets : ∀ offset ≤ image.code.size, number (Int32.ofNat offset))
    (instruction : Instruction) :
    Safe number objects (objects + instruction.allocated) declared (execute image instruction)
      fun _ => True := by
  have ends : Safe number objects objects declared (pure Flow.next) fun _ => True :=
    safe_pure trivial
  have ends' : Safe number (objects + 1) (objects + 1) declared (pure Flow.next) fun _ => True :=
    safe_pure trivial
  cases instruction with
  | binary operator =>
    refine safe_pop.bind fun y _ => safe_pop.bind fun x _ => ?_
    refine (safe_answer (operator.apply_gives x y)).bind fun value made => ?_
    refine (safe_push ?_).bind fun _ _ => ends
    rcases made with ⟨k, rfl⟩ | ⟨flag, rfl⟩
    · exact sound_ofInt boxed k
    · exact sound_ofBool boxed flag
  | constant k => exact (safe_push (sound_ofInt boxed k)).bind fun _ _ => ends
  | string offset =>
    refine (safe_answer (image.stringAt_gives offset)).bind fun bytes _ => ?_
    exact (safe_newString bytes).bind fun _ inside => (safe_pushRef inside).bind fun _ _ => ends'
  | aggregate name arity =>
    refine (safe_answer (count_gives arity)).bind fun size _ => ?_
    refine (safe_answer (image.stringAt_gives name)).bind fun bytes _ => ?_
    refine (safe_askTag bytes).bind fun tag _ => ?_
    exact (safe_gather size fun _ given => safe_newAggregate tag given).bind fun _ _ => ends'
  | storeThrough =>
    refine safe_pop.bind fun value given => safe_pop.bind fun target found => ?_
    exact (safe_storeThrough found given).bind fun _ _ => (safe_push given).bind fun _ _ => ends
  | storeElement => exact safe_storeElement.bind fun _ _ => ends
  | jump address =>
    refine (safe_answer (target_gives image address)).bind fun offset inside => ?_
    exact (safe_jumpTo (offsets offset (Nat.le_of_lt inside))).bind fun _ _ => ends
  | leave => exact safe_leave image offsets
  | ret => exact safe_throw rfl
  | drop => exact safe_pop.bind fun _ _ => ends
  | duplicate =>
    refine (safe_observe fun m sound => (m.stack.peek_gives 0).mono sound.stack).bind
      fun value given => ?_
    exact (safe_push given).bind fun _ _ => ends
  | swap =>
    refine safe_pop.bind fun y given => safe_pop.bind fun x given' => ?_
    exact (safe_push given).bind fun _ _ => (safe_push given').bind fun _ _ => ends
  | element =>
    refine safe_pop.bind fun word _ => (safe_answer (word.expectScalar_gives.during _)).bind
      fun index _ => safe_pop.bind fun container found => ?_
    have looks : Safe number objects objects declared (askHost (Host.element container index))
        (Value.Sound number objects declared) := by
      refine safe_observe fun m sound => ?_
      refine Heap.element_gives sound.heap (fun b => sound_ofByte boxed b) (sound_zero boxed) ?_
      rintro object rfl
      rw [sound.objects_eq]
      exact found
    exact looks.bind fun value given => (safe_push given).bind fun _ _ => ends
  | load name =>
    refine (safe_observe fun m sound => load_gives boxed sound name).bind fun value given => ?_
    exact (safe_push given).bind fun _ _ => ends
  | loadPlace name =>
    refine (safe_observe fun m sound => place_gives sound name).bind fun place there => ?_
    exact (safe_pushPlace there).bind fun _ _ => ends
  | store name =>
    refine (safe_observe fun m sound => (m.stack.peek_gives 0).mono sound.stack).bind
      fun value given => ?_
    exact (safe_store name given).bind fun _ _ => ends
  | jumpIfZero address => exact (safe_branch image address _ offsets).bind fun _ _ => ends
  | jumpUnlessZero address => exact (safe_branch image address _ offsets).bind fun _ _ => ends
  | enter arguments locals =>
    refine (safe_answer (count_gives locals)).bind fun size _ => ?_
    exact (safe_enter size).bind fun _ _ => ends
  | enterClosure arguments locals =>
    refine (safe_answer (count_gives locals)).bind fun size _ => ?_
    exact (safe_enter size).bind fun _ _ => ends
  | closure address captured =>
    refine (safe_answer (target_gives image address)).bind fun entry _ => ?_
    refine (safe_observe fun m sound => loadAll_gives boxed sound captured).bind ?_
    intro values given
    have given' : ∀ word ∈ values.toArray, word.Sound number objects declared := fun word member =>
      given word (List.mem_toArray.mp member)
    refine (safe_newClosure entry given').bind fun object inside => ?_
    exact (safe_pushRef inside).bind fun _ _ => ends'
  | callClosure arguments =>
    refine (safe_answer (count_gives arguments)).bind fun size _ => ?_
    exact (safe_callClosure image size offsets).bind fun _ _ => ends
  | call address arguments =>
    refine (safe_answer (count_gives arguments)).bind fun size _ => ?_
    refine (safe_answer (target_gives image address)).bind fun offset inside => ?_
    exact (safe_call (offsets offset (Nat.le_of_lt inside)) id).bind fun _ _ => ends
  | matchAggregate name arity =>
    refine (safe_answer (image.stringAt_gives name)).bind fun bytes _ => ?_
    refine (safe_askTag bytes).bind fun tag _ => safe_pop.bind fun value _ => ?_
    refine (safe_answer (count_gives arity)).bind fun size _ => safe_get.bind fun m _ => ?_
    exact (safe_push (sound_ofBool boxed _)).bind fun _ _ => ends
  | matchArray length =>
    refine safe_pop.bind fun value _ => (safe_answer (count_gives length)).bind fun size _ => ?_
    exact safe_get.bind fun m _ => (safe_push (sound_ofBool boxed _)).bind fun _ _ => ends
  | failure line column => exact safe_throw rfl
  | line k =>
    refine (safe_modify fun m sound => ?_).bind fun _ _ => ends
    exact ⟨sound.objects_eq, sound.globals_eq, sound.stack, sound.globals, sound.heap, sound.frame,
      sound.next, sound.sizes⟩
  | test pattern => exact (safe_test boxed pattern).bind fun _ _ => ends
  | readNumber =>
    refine (safe_onConsole Console.readNumber_clean).bind fun k _ => ?_
    exact (safe_push (sound_ofInt boxed k)).bind fun _ _ => ends
  | writeNumber =>
    refine safe_pop.bind fun word _ => (safe_answer (word.expectScalar_gives.during _)).bind
      fun k _ => (safe_onConsole (Console.writeNumber_clean k)).bind fun _ _ => ?_
    exact (safe_push (sound_zero boxed)).bind fun _ _ => ends
  | length =>
    refine safe_pop.bind fun value found => ?_
    have looks : Safe number objects objects declared (askHost (Host.length value))
        fun _ => True := by
      refine safe_observe fun m sound => Heap.length_gives ?_
      rintro object rfl
      rw [sound.objects_eq]
      exact found
    exact looks.bind fun k _ => (safe_push (sound_ofInt boxed k)).bind fun _ _ => ends
  | print =>
    refine safe_pop.bind fun value _ => (safe_print value).bind fun object inside => ?_
    exact (safe_pushRef inside).bind fun _ _ => ends'
  | array length =>
    refine (safe_answer (count_gives length)).bind fun size _ => ?_
    exact (safe_gather size fun _ given => safe_newArray given).bind fun _ _ => ends'
  | stop => exact safe_pure trivial

end Machine

end BytecodeMachine
