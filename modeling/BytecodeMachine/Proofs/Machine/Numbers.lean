import BytecodeMachine.Proofs.Machine.References
import BytecodeMachine.Proofs.Machine.Registers
import BytecodeMachine.Proofs.Word
/-!
# Numbers fit in words

Every number that a machine keeps fits in the 31 bits of a word. Results, lengths and what is
read are wrapped before they are kept. Frames, offsets and counts of arguments go to the stack
as they are, but a frame and a count are inside a stack that is not too large, and an offset is
inside code that is not too long.
-/
namespace BytecodeMachine

namespace Machine

open BytecodeMachine.Action

variable {capacity : Nat} {image : Image} {m n : Machine Workspace} {input : List UInt8}
  {sink : Sink}

/-- In code that is not too long a turn adds no number that does not fit: what the instruction
makes is wrapped, and what a call keeps is the offset behind it. -/
theorem Sound.advance_ends_fitting {objects declared : Nat}
    (sound : Sound Word.Fits objects declared m) (small : image.code.size ≤ 1073741823) :
    (advance image).Ends m (fun _ n => ∃ left, Sound Word.Fits left declared n)
      fun cause n => (∃ left, Sound Word.Fits left declared n) ∧ cause.isDangling = false := by
  apply advance_ends_sound image (fun k => Word.fits_unbox _) ?_ sound
  · intro instruction behind fetched
    have inside := (fetch_inside fetched).2
    exact Word.fits_ofNat (Nat.le_trans inside small)
  · intro offset inside
    exact Word.fits_ofNat (Nat.le_trans inside small)

/-- Every state that a machine comes to is sound with fitting numbers only, since the machine
is not made at all on a stack that is too large. -/
theorem Reachable.sound_fitting (small : image.code.size ≤ 1073741823)
    (reachable : Reachable image capacity (Workspace.ofInput input sink) m) :
    ∃ objects, Sound Word.Fits objects image.globals m := by
  induction reachable with
  | start made =>
    obtain ⟨accepted, events, ready, prepared, fresh⟩ := start_fresh made
    cases prepared
    refine ⟨0, fresh.sound rfl (fun k => Word.fits_unbox _) ?_⟩
    intro size inside
    exact Word.fits_ofNat (Nat.le_trans inside accepted)
  | turn before advanced earlier =>
    obtain ⟨objects, sound⟩ := earlier
    exact (sound.advance_ends_fitting small).of_ok advanced
  | fault before faulted earlier =>
    obtain ⟨objects, sound⟩ := earlier
    exact ((sound.advance_ends_fitting small).of_error faulted).1

/-- In every state that a machine comes to, also behind faults and halts, every number fits in a
word wherever it is kept: on the stack, also where the stack is not live, among the globals,
and in the arrays, aggregates and closures of the heap. -/
theorem contains_only_fitting_numbers (small : image.code.size < 1073741824)
    (reachable : Reachable image capacity (Workspace.ofInput input sink) m) :
    ∀ number, m.Contains (.scalar number) → Word.least ≤ number ∧ number ≤ Word.greatest := by
  intro number kept
  obtain ⟨objects, sound⟩ := reachable.sound_fitting (Nat.le_of_lt_succ small)
  exact sound.of_contains kept

/-- A program that adds one to the greatest number. -/
def overflowing : Image where
  strings := #[]
  publics := []
  code := (([.constant Word.greatest, .constant 1, .binary .add] : List Instruction).flatMap
    Instruction.encode).toArray
  globals := 0

/-- The sum is one more than the greatest number and is kept as the least. So there is a machine
that can be reached and meets the lower bound. -/
theorem contains_only_fitting_numbers_overflowing :
    ∃ m, Reachable overflowing 16 (Workspace.ofInput [] {}) m ∧
      m.stack.live[0]? = some (.scalar Word.least) ∧
      ∀ number, m.Contains (.scalar number) → Word.least ≤ number ∧ number ≤ Word.greatest := by
  obtain ⟨first, made, sum⟩ :
      ∃ first, (Machine.start overflowing 16 .boundless (Workspace.ofInput [] {})).2 = .ok first ∧
        (record overflowing 3 [] first).2.stack.live[0]? = some (.scalar Word.least) :=
    ⟨_, rfl, by decide +kernel⟩
  have reachable := ((History.start made).record 3).reachable
  exact ⟨_, reachable, sum, contains_only_fitting_numbers (by decide) reachable⟩

end Machine

end BytecodeMachine
