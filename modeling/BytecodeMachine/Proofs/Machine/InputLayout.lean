import BytecodeMachine.Host.Workspace
import BytecodeMachine.Instruction.Encode
import BytecodeMachine.Proofs.Console
import BytecodeMachine.Proofs.Machine.Correspondence
/-!
# The layout of the input

A program asks for numbers, one word of the input each. How the words lie in lines, how many
blanks are between them and whether the last line is ended is nothing that it can find out: two
runs on well-formed inputs with the same words do the same, turn by turn, and end alike, faults
and their texts included. The sink may fail; then it fails in both runs.

What differs between the runs is only how much input has been taken from behind the word that
was asked for last.
-/
namespace BytecodeMachine

open BytecodeMachine.Action

variable {α : Type} {strict : Prop}

namespace Workspace

/-- A workspace as it looks to those who do not see the input. -/
def withoutInput (host : Workspace) : Workspace :=
  { host with console := { host.console with input := [], pending := [] } }

/-- Two workspaces with the same heap, whose consoles have the same words left. -/
structure SameWords (first second : Workspace) : Prop where
  heap : second.heap = first.heap
  console : Console.SameWords first.console second.console

/-- Hosts with the same words left differ in their input only. -/
theorem SameWords.withoutInput_eq {first second : Workspace} (same : SameWords first second) :
    first.withoutInput = second.withoutInput := by
  simp only [withoutInput, same.heap, same.console.output, same.console.sink]

/-- Work on the heap is done on the heap and put back, also when it faults. -/
theorem onHeap_eq_putBack (action : Action Heap α) (host : Workspace) :
    onHeap action host = putBack (fun heap => { host with heap }) (action host.heap) := by
  simp only [onHeap]
  cases action host.heap <;> rfl

/-- The same of work on the console. -/
theorem onConsole_eq_putBack (action : Action Console α) (host : Workspace) :
    onConsole action host = putBack (fun console => { host with console })
      (action host.console) := by
  simp only [onConsole]
  cases action host.console <;> rfl

/-- The heaps are the same on both sides, so the same happens to both. -/
theorem simulates_onHeap (action : Action Heap α) :
    Simulates strict SameWords (onHeap action) (onHeap action) := by
  intro first second same
  exact (simulates_eq action _ _ same.heap.symm).within (onHeap_eq_putBack action first)
    (onHeap_eq_putBack action second) fun _ _ kept => ⟨kept.symm, same.console⟩

/-- The consoles have the same words left, and what keeps it so on consoles keeps it so on
hosts. -/
theorem simulates_onConsole {action : Action Console α}
    (simulates : Simulates strict Console.SameWords action action) :
    Simulates strict SameWords (onConsole action) (onConsole action) := by
  intro first second same
  exact (simulates _ _ same.console).within (onConsole_eq_putBack action first)
    (onConsole_eq_putBack action second) fun _ _ later => ⟨same.heap, later⟩

/-- Printing reads the heap and makes a string in it. No input is looked at. -/
theorem simulates_print (value : Value) :
    Simulates strict SameWords (print value) (print value) := by
  unfold print
  refine Simulates.afterGet fun first second same => ?_
  rw [same.heap]
  exact simulates_onHeap _

/-- What is seen on the heap is the same. -/
theorem repeats_heap {first second : Workspace} (same : SameWords first second)
    (look : Heap → Answer α) : Answer.Repeats strict (look first.heap) (look second.heap) := by
  rw [same.heap]
  exact Answer.repeats_refl _

/-- Workspaces with the same words left do alike what they are asked for. Their heaps are the same,
and reading a number is the one question that the input decides. -/
theorem alike_sameWords : Host.Alike strict SameWords where
  newString _ := simulates_onHeap _
  newArray _ := simulates_onHeap _
  newAggregate _ _ := simulates_onHeap _
  newClosure _ _ := simulates_onHeap _
  setField _ _ _ := simulates_onHeap _
  setElement _ _ _ := simulates_onHeap _
  readNumber := simulates_onConsole Console.simulates_readNumber
  writeNumber number := simulates_onConsole (Console.simulates_writeNumber number)
  print value := simulates_print value
  field _ _ same object index := repeats_heap same (Heap.field object index)
  element _ _ same container index := repeats_heap same (Heap.element container index)
  tag _ _ _ name := Answer.repeats_refl _
  sameString _ _ same x y := repeats_heap same fun heap => .ok (heap.sameString x y)
  length _ _ same value := repeats_heap same (Heap.length value)
  passes := by
    intro first second same value pattern
    cases pattern with
    | sameString => rfl
    | reference => rfl
    | number => rfl
    | string => exact congrArg (Heap.hasKind .string value) same.heap
    | array => exact congrArg (Heap.hasKind .array value) same.heap
    | aggregate => exact congrArg (Heap.hasKind .aggregate value) same.heap
    | closure => exact congrArg (Heap.hasKind .closure value) same.heap
  matchesAggregate _ _ same value tag arity := congrArg (Heap.isAggregate value tag arity) same.heap
  matchesArray _ _ same value size := congrArg (Heap.isArray value size) same.heap

/-- Two inputs that decode to texts with the same words, however these are laid out in lines, are
the same to a console. -/
theorem sameWords_ofInput {first second : List UInt8} {cs ds : List Char} (sink : Sink)
    (decoded : Utf8.decode? first = some cs) (decoded' : Utf8.decode? second = some ds)
    (same : Text.words cs = Text.words ds) :
    SameWords (ofInput first sink) (ofInput second sink) := by
  refine ⟨rfl, rfl, rfl, (Text.words cs).map String.ofList, ?_, ?_⟩
  · simp only [Console.wordsLeft?, ofInput, decoded]
    rfl
  · simp only [Console.wordsLeft?, ofInput, decoded', same]
    rfl

end Workspace

namespace Machine

variable {image : Image} {capacity : Nat} {m n : Machine Workspace}

/-- One turn: the machine is the same on both sides, and it asks its host for nothing that tells
the layouts apart. -/
theorem advance_simulates_of_sameWords (image : Image) :
    Simulates strict (Corresponds Workspace.SameWords 0) (advance image) (advance image) := by
  have alike : Comparable strict Workspace.SameWords 0 image image :=
    ⟨Image.extends_refl image, fun _ => ⟨rfl, rfl⟩, Workspace.alike_sameWords⟩
  intro m n now
  refine advance_tracks alike now fun object _ => ?_
  exact Workspace.repeats_heap now.host fun heap => do int32OfNat (← heap.entry object)

/-- A machine on an input goes with a machine on another input that has the same words. One
allocator makes the two alike or refuses both. Whichever allocators have made them, after any
number of turns they look the same to those who do not see the input, and their next turns end the
same, in an answer or in a fault. So do their runs, if they end. -/
theorem input_layout_is_invisible {first second : List UInt8} {cs ds : List Char} {sink : Sink}
    (decoded : Utf8.decode? first = some cs) (decoded' : Utf8.decode? second = some ds)
    (same : Text.words cs = Text.words ds) :
    (∀ allocator, (Machine.start image capacity allocator (Workspace.ofInput first sink)).2.map
        (mapHost Workspace.withoutInput) =
      (Machine.start image capacity allocator (Workspace.ofInput second sink)).2.map
        (mapHost Workspace.withoutInput)) ∧
    ∀ allocator allocator' m n,
      (Machine.start image capacity allocator (Workspace.ofInput first sink)).2 = .ok m →
      (Machine.start image capacity allocator' (Workspace.ofInput second sink)).2 = .ok n →
      ∀ turns,
        (afterTurns image turns m).mapHost Workspace.withoutInput =
          (afterTurns image turns n).mapHost Workspace.withoutInput ∧
        mapLeft Workspace.withoutInput (advance image (afterTurns image turns m)) =
          mapLeft Workspace.withoutInput (advance image (afterTurns image turns n)) ∧
        (run image turns m).map (mapLeft Workspace.withoutInput) =
          (run image turns n).map (mapLeft Workspace.withoutInput) := by
  have hosts := Workspace.sameWords_ofInput sink decoded decoded' same
  have simulates : Simulates True (Corresponds Workspace.SameWords 0) (advance image)
      (advance image) := advance_simulates_of_sameWords image
  have looks (s t : Machine Workspace) (now : Corresponds Workspace.SameWords 0 s t) :
      s.mapHost Workspace.withoutInput = t.mapHost Workspace.withoutInput :=
    now.mapHost_eq fun _ _ related => related.withoutInput_eq
  refine ⟨fun _ => start_mapHost_eq rfl rfl rfl, ?_⟩
  intro _ _ m n made made' turns
  have started : Corresponds Workspace.SameWords 0 m n :=
    start_corresponds rfl rfl hosts made made'
  have now : Corresponds Workspace.SameWords 0 (afterTurns image turns m)
      (afterTurns image turns n) :=
    related_afterTurns started (.inl trivial) fun _ _ before => simulates _ _ before
  exact ⟨looks _ _ now, mapLeft_eq_of_tracks looks (simulates _ _ now),
    run_mapLeft_eq looks simulates started⟩

/-- A program that adds two numbers and asks for a third one. -/
def summing : Image where
  strings := #[]
  publics := []
  code := (([.readNumber, .readNumber, .binary .add, .readNumber] : List Instruction).flatMap
    Instruction.encode).toArray
  globals := 0

/-- The numbers are added whether they share a line or have lines of their own, and there is no
third one either way. -/
theorem input_layout_is_invisible_summing :
    ∃ m n cause s,
      (Machine.start summing 16 .boundless (Workspace.ofInput "1 2\n".toUTF8.toList {})).2 = .ok m ∧
      (Machine.start summing 16 .boundless (Workspace.ofInput "\n 1\n\t2".toUTF8.toList {})).2 =
        .ok n ∧
      (afterTurns summing 3 m).stack.live[0]? = some (.scalar 3) ∧
      (afterTurns summing 3 n).stack.live[0]? = some (.scalar 3) ∧
      mapLeft Workspace.withoutInput (advance summing (afterTurns summing 3 m)) =
        .error cause s ∧
      mapLeft Workspace.withoutInput (advance summing (afterTurns summing 3 n)) =
        .error cause s := by
  obtain ⟨m, made, sum, ended⟩ :
      ∃ m,
        (Machine.start summing 16 .boundless (Workspace.ofInput "1 2\n".toUTF8.toList {})).2 =
          .ok m ∧
        (afterTurns summing 3 m).stack.live[0]? = some (.scalar 3) ∧
        (advance summing).run' (afterTurns summing 3 m) = none :=
    ⟨_, rfl, by decide +kernel, by decide +kernel⟩
  obtain ⟨n, made'⟩ : ∃ n,
      (Machine.start summing 16 .boundless (Workspace.ofInput "\n 1\n\t2".toUTF8.toList {})).2 =
        .ok n :=
    ⟨_, rfl⟩
  have first : Utf8.decode? "1 2\n".toUTF8.toList = some ['1', ' ', '2', '\n'] := by
    decide +kernel
  have second : Utf8.decode? "\n 1\n\t2".toUTF8.toList =
      some ['\n', ' ', '1', '\n', '\t', '2'] := by decide +kernel
  obtain ⟨alike, turned, _⟩ :=
    (input_layout_is_invisible first second (by decide)).2 _ _ m n made made' 3
  have sums := congrArg (·.stack.live[0]?) alike
  simp only [mapHost, sum] at sums
  cases faulted : advance summing (afterTurns summing 3 m) with
  | ok flow s =>
    rw [run'_eq_some_iff.mpr ⟨s, faulted⟩] at ended
    cases ended
  | error cause s =>
    have left : mapLeft Workspace.withoutInput (advance summing (afterTurns summing 3 m)) =
        .error cause (s.mapHost Workspace.withoutInput) := by
      rw [faulted]
      rfl
    exact ⟨m, n, cause, _, made, made', sum, sums.symm, left, turned.symm.trans left⟩

end Machine

end BytecodeMachine
