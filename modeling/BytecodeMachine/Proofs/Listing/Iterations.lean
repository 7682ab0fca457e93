import BytecodeMachine.Listing
import BytecodeMachine.Proofs.Instruction.Progress
/-!
# Listing ends

The loop that lists the instructions of an image runs until the code ends, an instruction is a stop,
or one cannot be decoded. What it does is said here as a relation that bounds nothing: an offset
for which the loop never ended would be related to no answer.

Each iteration moves the cursor and leaves it inside the code. So the loop ends for all code, with
one answer and after one number of iterations, which is at most the number of bytes. The definition
takes the number of bytes as its fuel. It is never used up before the loop ends, so the definition
gives the answer of the loop.
-/
namespace BytecodeMachine

namespace Listing

variable {code : Array UInt8} {offset count count' fuel : Nat}
  {answer answer' : Answer (List Entry)}

/-- Listing from an offset on ends after so many iterations with this answer. -/
inductive Loops (code : Array UInt8) : Nat → Nat → Answer (List Entry) → Prop
  | atEnd {offset : Nat} (behind : code.size ≤ offset) : Loops code offset 0 (.ok [])
  | refused {offset : Nat} {cause : Fault} {t : Cursor} (more : offset < code.size)
      (read : Instruction.read ⟨code, offset⟩ = .error cause t) :
      Loops code offset 1 (.error (.during (.instruction offset none) cause))
  | stopped {offset : Nat} {t : Cursor} (more : offset < code.size)
      (read : Instruction.read ⟨code, offset⟩ = .ok .stop t) :
      Loops code offset 1 (.ok [⟨offset, t.pos - offset, .stop⟩])
  | goesOn {offset count : Nat} {instruction : Instruction} {t : Cursor}
      {answer : Answer (List Entry)} (more : offset < code.size)
      (read : Instruction.read ⟨code, offset⟩ = .ok instruction t) (running : instruction ≠ .stop)
      (later : Loops code t.pos count answer) :
      Loops code offset (count + 1)
        (answer.map fun entries => ⟨offset, t.pos - offset, instruction⟩ :: entries)

/-- Of an offset there is only one way to go on. Proof: induction on the loop, against the last
step of the other one. Whether there is code left and what is read there decides which step it
is. -/
theorem Loops.unique (loops : Loops code offset count answer)
    (loops' : Loops code offset count' answer') : count' = count ∧ answer' = answer := by
  induction loops generalizing count' answer' with
  | atEnd behind =>
    cases loops' with
    | atEnd => exact ⟨rfl, rfl⟩
    | refused more | stopped more | goesOn more => exact absurd more (Nat.not_lt.mpr behind)
  | refused more read =>
    cases loops' with
    | atEnd behind => exact absurd more (Nat.not_lt.mpr behind)
    | refused _ read' =>
      cases read.symm.trans read'
      exact ⟨rfl, rfl⟩
    | stopped _ read' | goesOn _ read' => cases read.symm.trans read'
  | stopped more read =>
    cases loops' with
    | atEnd behind => exact absurd more (Nat.not_lt.mpr behind)
    | refused _ read' => cases read.symm.trans read'
    | stopped _ read' =>
      cases read.symm.trans read'
      exact ⟨rfl, rfl⟩
    | goesOn _ read' running =>
      cases read.symm.trans read'
      exact absurd rfl running
  | goesOn more read running _ goesOn =>
    cases loops' with
    | atEnd behind => exact absurd more (Nat.not_lt.mpr behind)
    | refused _ read' => cases read.symm.trans read'
    | stopped _ read' =>
      cases read.symm.trans read'
      exact absurd rfl running
    | goesOn _ read' _ later' =>
      cases read.symm.trans read'
      obtain ⟨rfl, rfl⟩ := goesOn later'
      exact ⟨rfl, rfl⟩

/-- The loop ends, and as much fuel as there are bytes is enough to see how. Proof: induction on
the fuel. Every instruction that is read leaves less of the code than there was. -/
theorem exists_loops (enough : code.size - offset ≤ fuel) :
    ∃ count ≤ code.size - offset, Loops code offset count (decodeFrom code fuel offset) := by
  induction fuel generalizing offset with
  | zero => exact ⟨0, Nat.zero_le _, .atEnd (by omega)⟩
  | succ fuel later =>
    by_cases behind : code.size ≤ offset
    · rw [decodeFrom, if_pos behind]
      exact ⟨0, Nat.zero_le _, .atEnd behind⟩
    have more : offset < code.size := Nat.not_le.mp behind
    rw [decodeFrom, if_neg behind]
    cases read : Instruction.read ⟨code, offset⟩ with
    | error cause t => exact ⟨1, by omega, .refused more read⟩
    | ok instruction t =>
      obtain ⟨_, moved, inside⟩ := (Instruction.read_ends_within more).of_ok read
      dsimp only
      by_cases stop : instruction = .stop
      · subst stop
        exact ⟨1, by omega, .stopped more read⟩
      · obtain ⟨count, few, loops⟩ := later (by omega : code.size - t.pos ≤ fuel)
        have whole := Loops.goesOn more read stop loops
        rw [if_neg stop]
        refine ⟨count + 1, by omega, ?_⟩
        cases rest : decodeFrom code fuel t.pos <;> rwa [rest] at whole

end Listing

open BytecodeMachine.Action Cursor

/-- Decoding goes forward and ends. Reading an instruction leaves the cursor inside the code, behind
the offset unless the code ends there, whether an instruction is read or refused. Behind the count
of captures of a closure that is not negative, and for which enough bytes are left, nothing can be
refused but a storage that does not exist. So the loop that lists the code ends, with one answer
and after one number of iterations that is at most the number of bytes. -/
theorem decoding_makes_progress (image : Image) :
    (∀ start ≤ image.code.size,
      Instruction.read.Ends ⟨image.code, start⟩ (fun _ => Advanced image.code start)
        fun _ => Advanced image.code start) ∧
    (∀ start target count t,
      Passes (0x54 :: (LittleEndian.encode target ++ LittleEndian.encode count))
        ⟨image.code, start⟩ t → 0 ≤ count → count.toInt.toNat * 5 ≤ t.remaining →
      Instruction.read.Ends ⟨image.code, start⟩
        (fun instruction _ => ∃ captured, instruction = .closure target captured ∧
          captured.length = count.toInt.toNat)
        (InvalidCapture count.toInt.toNat t)) ∧
    ∃ iterations ≤ image.code.size, ∀ count answer,
      Listing.Loops image.code 0 count answer ↔
        count = iterations ∧ answer = Listing.entries image := by
  refine ⟨fun _ => Instruction.read_advances, fun _ _ _ _ => Instruction.read_closure_ends, ?_⟩
  have enough : image.code.size - 0 ≤ image.code.size := Nat.le_refl _
  obtain ⟨iterations, few, loops⟩ := Listing.exists_loops enough
  refine ⟨iterations, few, fun count answer => ⟨loops.unique, ?_⟩⟩
  rintro ⟨rfl, rfl⟩
  exact loops

/-- A drop, and a closure whose second capture has no storage. -/
def strayCapture : Image :=
  { strings := #[], publics := [], globals := 0,
    code := #[0x18, 0x54, 7, 0, 0, 0, 2, 0, 0, 0, 1, 0, 0, 0, 0, 9, 0, 0, 0, 0] }

/-- The closure is refused in its captures, four bytes before the end of the code. The cursor has
gone forward all the same, and the loop ends with this fault in its second turn. -/
theorem decoding_makes_progress_strayCapture :
    InvalidCapture 2 ⟨strayCapture.code, 10⟩ (.code (.invalidStorage 9)) ⟨strayCapture.code, 16⟩ ∧
    Advanced strayCapture.code 1 ⟨strayCapture.code, 16⟩ ∧
    Listing.entries strayCapture =
      .error (.during (.instruction 1 none) (.code (.invalidStorage 9))) := by
  obtain ⟨forward, captures, iterations, _, loops⟩ := decoding_makes_progress strayCapture
  have first : Instruction.read ⟨strayCapture.code, 0⟩ = .ok .drop ⟨strayCapture.code, 1⟩ := rfl
  have refused : Instruction.read ⟨strayCapture.code, 1⟩ =
      .error (.code (.invalidStorage 9)) ⟨strayCapture.code, 16⟩ := rfl
  have count : Passes (0x54 :: (LittleEndian.encode 7 ++ LittleEndian.encode 2))
      ⟨strayCapture.code, 1⟩ ⟨strayCapture.code, 10⟩ := ⟨by decide, rfl⟩
  refine ⟨(captures 1 7 2 _ count (by decide) (by decide)).of_error refused,
    (forward 1 (by decide)).of_error refused, ?_⟩
  have second := Listing.Loops.refused (by decide) refused
  exact ((loops 2 _).mp (.goesOn (by decide) first nofun second)).2.symm

end BytecodeMachine
