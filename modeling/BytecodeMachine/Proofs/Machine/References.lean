import BytecodeMachine.Instruction.Encode
import BytecodeMachine.Proofs.Heap.Print
import BytecodeMachine.Proofs.Machine.History
import BytecodeMachine.Proofs.Machine.Safety
/-!
# References cannot be forged

A program has no way to make a reference other than making an object, and objects are never
removed. So in every state that a machine on a workspace comes to, every reference leads
to an object and every place is one that may be, wherever words are kept. This holds behind
faults as well, and behind a halt, since a machine can be run again.

It follows that the fault of a reference that leads nowhere is never raised, and that no such
reference is printed.
-/
namespace BytecodeMachine.Machine

open BytecodeMachine.Action

variable {number : Int32 → Prop} {objects declared capacity : Nat} {image : Image}
  {m n : Machine Workspace} {host : Workspace}

/-- A turn of a sound machine leads to a sound machine, also when nothing can be read or the
instruction faults. -/
theorem advance_ends_sound (image : Image) (boxed : ∀ k, number (Word.unbox (Word.box k)))
    (offsets : ∀ offset ≤ image.code.size, number (Int32.ofNat offset))
    (sound : Sound number objects declared m)
    (behinds : ∀ instruction behind, fetch image m.next = .ok (instruction, behind) →
      number (Int32.ofNat behind)) :
    (advance image).Ends m (fun _ n => ∃ left, Sound number left declared n)
      fun cause n => (∃ left, Sound number left declared n) ∧ cause.isDangling = false := by
  unfold Ends advance
  by_cases atEnd : image.code.size ≤ m.next
  · simp only [atEnd, if_true]
    exact ⟨⟨objects, sound⟩, rfl⟩
  · simp only [atEnd, if_false]
    cases fetched : fetch image m.next with
    | error cause =>
      refine ⟨⟨objects, sound⟩, ?_⟩
      unfold fetch at fetched
      split at fetched
      · cases fetched
      · next decoded =>
        cases fetched
        have other := (Instruction.read_clean _).of_error decoded
        exact other
    | ok found =>
      obtain ⟨instruction, behind⟩ := found
      have moved : Sound number objects declared { m with next := behind } :=
        ⟨sound.objects_eq, sound.globals_eq, sound.stack, sound.globals, sound.heap, sound.frame,
          behinds instruction behind fetched, sound.sizes⟩
      have ended := execute_safe boxed image offsets instruction _ moved
      simp only [turn]
      cases outcome : execute image instruction { m with next := behind } with
      | ok flow n => exact ⟨_, (ended.of_ok outcome).1⟩
      | error cause n =>
        have failed := ended.of_error outcome
        exact failed

/-- Where every number is admitted, no more has to be known. -/
theorem Sound.advance_ends (sound : Sound (fun _ => True) objects declared m) (image : Image) :
    (advance image).Ends m (fun _ n => ∃ left, Sound (fun _ => True) left declared n)
      fun cause n => (∃ left, Sound (fun _ => True) left declared n) ∧ cause.isDangling = false :=
  advance_ends_sound image (fun _ => trivial) (fun _ _ => trivial) sound fun _ _ _ => trivial

/-- A new machine on a workspace is sound: its words are the few numbers it starts with. There is
no object yet, so no word could lead to one, and the registers are sizes that the stack has. -/
theorem Fresh.sound (fresh : Fresh image capacity host m) (none : host.heap.objects = #[])
    (boxed : ∀ k, number (Word.unbox (Word.box k)))
    (sizes : ∀ size ≤ capacity, number (Int32.ofNat size)) :
    Sound number 0 image.globals m := by
  have zero : number 0 := sizes 0 (Nat.zero_le _)
  have away : Word.unbox (Word.box nowhere) = nowhere := by decide
  have two : Word.unbox (Word.box 2) = 2 := by decide
  refine ⟨?_, ?_, ?_, ?_, ?_, ?_, ?_, ?_⟩
  · rw [fresh.host, Heap.size, none]
    rfl
  · rw [fresh.globals, Array.size_replicate]
  · intro word member
    rcases fresh.words word member with rfl | rfl | rfl
    · exact zero
    · rw [← away]
      exact boxed nowhere
    · rw [← two]
      exact boxed 2
  · intro word member
    rw [fresh.globals] at member
    rw [(Array.mem_replicate.mp member).2]
    exact zero
  · intro object member
    rw [fresh.host, none] at member
    exact absurd member (Array.not_mem_empty _)
  · have top := fresh.top
    rw [fresh.frame]
    exact sizes _ (by omega)
  · rw [fresh.next]
    exact zero
  · rw [fresh.size]
    exact sizes

/-- Every state that a machine on a workspace comes to is sound, whatever the numbers in it. Proof:
a new machine is sound, and every turn and every fault leads from sound machines to sound ones. -/
theorem Reachable.sound {input : List UInt8} {sink : Sink}
    (reachable : Reachable image capacity (Workspace.ofInput input sink) m) :
    ∃ objects, Sound (fun _ => True) objects image.globals m := by
  induction reachable with
  | start made =>
    obtain ⟨_, events, ready, prepared, fresh⟩ := start_fresh made
    cases prepared
    exact ⟨0, fresh.sound rfl (fun _ => trivial) fun _ _ => trivial⟩
  | turn before advanced earlier =>
    obtain ⟨_, sound⟩ := earlier
    exact (sound.advance_ends image).of_ok advanced
  | fault before faulted earlier =>
    obtain ⟨_, sound⟩ := earlier
    exact ((sound.advance_ends image).of_error faulted).1

/-- A word is kept on the stack, live or not, among the globals or in an object. -/
def Contains (m : Machine Workspace) (word : Value) : Prop :=
  word ∈ m.stack.words ∨ word ∈ m.globals ∨
    ∃ object ∈ m.host.heap.objects, word ∈ object.words

/-- In a sound machine every word is sound that is kept anywhere: on the stack, in a global or in
an object. -/
theorem Sound.of_contains (sound : Sound number objects declared m) {word : Value}
    (kept : m.Contains word) : word.Sound number m.host.heap.size m.globals.size := by
  rw [sound.objects_eq, sound.globals_eq]
  rcases kept with member | member | ⟨object, member, kept⟩
  · exact sound.stack word member
  · exact sound.globals word member
  · exact sound.heap object member word kept

/-- In every state that a machine on a workspace comes to, also behind faults: references lead to
objects, places in objects are fields of objects that are there and never a closure's entry,
and places among the globals are inside. So no turn faults for a reference that leads
nowhere, and printing a word never comes to one, however it would be shown. -/
theorem references_lead_to_objects {input : List UInt8} {sink : Sink}
    (reachable : Reachable image capacity (Workspace.ofInput input sink) m) :
    (∀ object, m.Contains (.ref object) → object.index < m.host.heap.size) ∧
      (∀ object index, m.Contains (.slot (.field object index)) →
        object.index < m.host.heap.size ∧ 1 ≤ index) ∧
      (∀ index, m.Contains (.slot (.global index)) → index < m.globals.size) ∧
      (∀ cause n, advance image m = .error cause n → cause.isDangling = false) ∧
      ∀ word, m.Contains word → ∀ mark,
        Print.valueMarking mark m.host.heap Print.limit word = m.host.heap.print word := by
  obtain ⟨objects, sound⟩ := reachable.sound
  refine ⟨?_, ?_, ?_, ?_, ?_⟩
  · intro object kept
    exact sound.of_contains kept
  · intro object index kept
    exact sound.of_contains kept
  · intro index kept
    exact sound.of_contains kept
  · intro cause n faulted
    exact ((sound.advance_ends image).of_error faulted).2
  · intro word kept mark
    refine Print.valueMarking_eq_value ?_ mark Print.limit (sound.of_contains kept)
    rw [sound.objects_eq, sound.globals_eq]
    exact sound.heap

/-- A program that makes an array of one element and prints it. -/
def printedArray : Image where
  strings := #[]
  publics := []
  code := (([.constant 7, .array 1, .print] : List Instruction).flatMap Instruction.encode).toArray
  globals := 0

/-- Once the array is made, the reference on the stack leads to it. The program prints it later,
but two turns suffice for the machine to contain a reference. -/
theorem references_lead_to_objects_printedArray :
    ∃ m, Reachable printedArray 16 (Workspace.ofInput [] {}) m ∧ m.Contains (.ref ⟨0⟩) ∧
      0 < m.host.heap.size := by
  obtain ⟨first, made, kept⟩ :
      ∃ first, (Machine.start printedArray 16 .boundless (Workspace.ofInput [] {})).2 = .ok first ∧
        .ref ⟨0⟩ ∈ (record printedArray 2 [] first).2.stack.words :=
    ⟨_, rfl, by decide +kernel⟩
  have reachable := ((History.start made).record 2).reachable
  have leads := (references_lead_to_objects reachable).1 ⟨0⟩ (.inl kept)
  exact ⟨_, reachable, .inl kept, leads⟩

end BytecodeMachine.Machine
