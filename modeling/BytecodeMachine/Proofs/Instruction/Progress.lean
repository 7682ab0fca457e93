import BytecodeMachine.Proofs.Action
import BytecodeMachine.Proofs.Instruction.Decode
import BytecodeMachine.Proofs.Instruction.Parts
/-!
# Reading goes forward inside the code

Nothing in reading moves the cursor back or behind the end of the code, and the opcode moves it by
one byte. So reading goes forward, also where it is refused, unless no byte is left.

The captures of a closure are the only operands whose number is read from the code. That number is
compared with what is left before any of them is read, and each takes five bytes. So the code does
not end among them: what can be refused there is a storage that does not exist, and nothing else.
-/
namespace BytecodeMachine

open BytecodeMachine.Action

namespace Cursor

variable {code : Array UInt8} {start count : Nat} {s t : Cursor}

/-- The cursor is in this code, neither before a position nor behind the end. -/
structure Within (code : Array UInt8) (start : Nat) (cursor : Cursor) : Prop where
  code_eq : cursor.code = code
  start_le : start ≤ cursor.pos
  le_size : cursor.pos ≤ code.size

/-- The cursor is inside this code and has left a position behind, unless the code ends there. -/
structure Advanced (code : Array UInt8) (start : Nat) (cursor : Cursor) : Prop where
  within : Within code start cursor
  start_lt : start < code.size → start < cursor.pos

/-- A byte is read only inside the code. So the position it moves to is at most the end, and a
refusal leaves it where it was. -/
theorem maintains_byte : Maintains (Within code start) byte := by
  rintro ⟨found, pos⟩ ⟨rfl, low, high⟩
  unfold Ends byte
  by_cases inside : pos < found.size
  · simp only [inside, dif_pos]
    exact ⟨rfl, Nat.le_succ_of_le low, inside⟩
  · simp only [inside, dif_neg, not_false_eq_true]
    exact ⟨rfl, low, high⟩

/-- Four bytes are read only if they are all inside, and the position moves past them. -/
theorem maintains_number : Maintains (Within code start) number := by
  rintro ⟨found, pos⟩ ⟨rfl, low, high⟩
  unfold Ends number
  by_cases inside : pos + 4 ≤ found.size
  · simp only [inside, dif_pos]
    exact ⟨rfl, Nat.le_add_right_of_le low, inside⟩
  · simp only [inside, dif_neg, not_false_eq_true]
    exact ⟨rfl, low, high⟩

/-- The two readers keep the position within the code, everything else leaves the cursor alone, and
sequences keep what their parts keep. So the whole decoder does, by the closure under parts. -/
theorem within_parts : HoldsOfParts fun _ action => Maintains (Within code start) action where
  holds_byte := maintains_byte
  holds_number := maintains_number
  holds_get := fun _ now => now
  holds_pure := maintains_pure
  holds_throw := fun _ _ now => now
  holds_bind := Maintains.bind

/-- Where a byte remains it is read. -/
theorem byte_of_remaining (enough : 1 ≤ s.remaining) :
    ∃ b, s.code[s.pos]? = some b ∧ byte s = .ok b ⟨s.code, s.pos + 1⟩ := by
  have inside : s.pos < s.code.size := by
    unfold remaining at enough
    omega
  refine ⟨s.code[s.pos], Array.getElem?_eq_getElem inside, ?_⟩
  simp only [byte, inside, dif_pos]

/-- Where four bytes remain they are read as a number, whatever they are. -/
theorem number_of_remaining (enough : 4 ≤ s.remaining) :
    ∃ k, number s = .ok k ⟨s.code, s.pos + 4⟩ := by
  have inside : s.pos + 4 ≤ s.code.size := by
    unfold remaining at enough
    omega
  simp only [number, inside, dif_pos, EStateM.Result.ok.injEq, and_true, exists_eq']

/-- One of the captures that stand at the cursor has a storage that does not exist. This byte is
what the fault names, and what the cursor is left behind. -/
def InvalidCapture (count : Nat) (s : Cursor) (cause : Fault) (t : Cursor) : Prop :=
  ∃ before < count, ∃ b, s.code[s.pos + before * 5]? = some b ∧
    (∀ storage : Storage, storage.code ≠ b) ∧
      cause = .code (.invalidStorage b) ∧ t = ⟨s.code, s.pos + before * 5 + 1⟩

/-- The first capture is no longer at the cursor. -/
theorem InvalidCapture.succ {cause : Fault}
    (invalid : InvalidCapture count ⟨s.code, s.pos + 5⟩ cause t) :
    InvalidCapture (count + 1) s cause t := by
  obtain ⟨before, inside, b, there, none, named, left⟩ := invalid
  have shifted : s.pos + 5 + before * 5 = s.pos + (before + 1) * 5 := by omega
  dsimp only at there left
  rw [shifted] at there left
  exact ⟨before + 1, Nat.succ_lt_succ inside, b, there, none, named, left⟩

/-- There is no storage for a code exactly if no storage has it. -/
theorem ofCode?_eq_none_iff {b : UInt8} :
    Storage.ofCode? b = none ↔ ∀ storage : Storage, storage.code ≠ b := by
  simp only [Option.eq_none_iff_forall_ne_some, ne_eq, storage_ofCode?_eq_some_iff]

/-- With four bytes left a variable can be refused for its storage only, and then nothing has been
read. -/
theorem variableIn_ends (b : UInt8) (enough : 4 ≤ s.remaining) :
    (variableIn b).Ends s (fun _ t => t = ⟨s.code, s.pos + 4⟩)
      fun cause t => (∀ storage : Storage, storage.code ≠ b) ∧
        cause = .code (.invalidStorage b) ∧ t = s := by
  unfold variableIn
  cases found : Storage.ofCode? b with
  | none => exact ⟨ofCode?_eq_none_iff.mp found, rfl, rfl⟩
  | some storage =>
    obtain ⟨k, index⟩ := number_of_remaining enough
    exact Ends.after index rfl

/-- Where as many captures as are read can be there, they are read up to the first one whose
storage does not exist. The code does not end before. -/
theorem captures_ends (enough : count * 5 ≤ s.remaining) :
    (captures count).Ends s
      (fun names t => names.length = count ∧ t = ⟨s.code, s.pos + count * 5⟩)
      (InvalidCapture count s) := by
  induction count generalizing s with
  | zero => exact ⟨rfl, rfl⟩
  | succ count later =>
    obtain ⟨b, there, storage⟩ := byte_of_remaining (s := s) (by omega)
    have four : 4 ≤ remaining ⟨s.code, s.pos + 1⟩ := by
      simp only [remaining] at enough ⊢
      omega
    have others : count * 5 ≤ remaining ⟨s.code, s.pos + 5⟩ := by
      simp only [remaining] at enough ⊢
      omega
    refine Ends.after storage (Ends.bind ((variableIn_ends b four).mono (fun _ _ => id) ?_) ?_)
    · rintro cause t ⟨none, named, rfl⟩
      exact ⟨0, Nat.zero_lt_succ count, b, there, none, named, rfl⟩
    · rintro name _ rfl
      refine Ends.bind ((later others).mono (fun _ _ => id) fun _ _ => InvalidCapture.succ) ?_
      rintro names _ ⟨length, rfl⟩
      have behind : s.pos + 5 + count * 5 = s.pos + (count + 1) * 5 := by omega
      exact ⟨congrArg Nat.succ length, by rw [← behind]⟩

end Cursor

namespace Instruction

open Cursor

variable {code : Array UInt8} {start : Nat} {target count : Int32} {s t : Cursor}

/-- Where a byte is left, reading takes it. -/
theorem read_ends_within (inside : start < code.size) :
    read.Ends ⟨code, start⟩ (fun _ t => Within code (start + 1) t)
      fun _ t => Within code (start + 1) t := by
  obtain ⟨b, _, opcode⟩ := byte_of_remaining (s := ⟨code, start⟩) (Nat.sub_pos_of_lt inside)
  have taken : Within code (start + 1) ⟨code, start + 1⟩ := ⟨rfl, Nat.le_refl _, inside⟩
  refine Ends.after (a := ⟨code, start⟩) rfl (Ends.after opcode ?_)
  exact within_parts.holds_readOperands start b _ taken

/-- At the end of the code there is no opcode, and this is reported at that offset. -/
theorem read_at_end (behind : code.size ≤ start) :
    read ⟨code, start⟩ = .error (.code (.byteMissing start)) ⟨code, start⟩ := by
  have refused : byte ⟨code, start⟩ = .error (.code (.byteMissing start)) ⟨code, start⟩ := by
    simp only [byte, Nat.not_lt.mpr behind, dif_neg, not_false_eq_true]
  exact bind_eq_error_iff.mpr (.inr ⟨_, _, rfl, bind_eq_error_iff.mpr (.inl refused)⟩)

/-- However reading ends, it has gone forward as far as that can be. Inside the code the opcode is
behind it at least; at the end nothing has been read. -/
theorem read_advances (inside : start ≤ code.size) :
    read.Ends ⟨code, start⟩ (fun _ => Advanced code start) fun _ => Advanced code start := by
  rcases Nat.lt_or_eq_of_le inside with more | atEnd
  · have advanced {t : Cursor} (within : Within code (start + 1) t) : Advanced code start t :=
      ⟨⟨within.code_eq, Nat.le_of_succ_le within.start_le, within.le_size⟩,
        fun _ => within.start_le⟩
    exact (read_ends_within more).mono (fun _ _ => advanced) fun _ _ => advanced
  · unfold Ends
    rw [read_at_end (Nat.le_of_eq atEnd.symm)]
    exact ⟨⟨rfl, Nat.le_refl _, inside⟩, fun more => absurd atEnd (Nat.ne_of_lt more)⟩

/-- A closure whose captures can be there is read, unless one of them has no storage. The opcode
and the two operands are passed, the check for what remains is met, and then only the captures can
end it. -/
theorem read_closure_ends
    (stands : Passes (0x54 :: (LittleEndian.encode target ++ LittleEndian.encode count)) s t)
    (positive : 0 ≤ count) (enough : count.toInt.toNat * 5 ≤ t.remaining) :
    read.Ends s
      (fun instruction _ => ∃ captured, instruction = .closure target captured ∧
        captured.length = count.toInt.toNat)
      (InvalidCapture count.toInt.toNat t) := by
  have parted : Passes ([0x54] ++ (LittleEndian.encode target ++ LittleEndian.encode count)) s t :=
    stands
  obtain ⟨u, opcode, operands⟩ := passes_append.mp parted
  obtain ⟨v, first, second⟩ := passes_append.mp operands
  have closure : (readClosure s.pos).Ends u
      (fun instruction _ => ∃ captured, instruction = .closure target captured ∧
        captured.length = count.toInt.toNat)
      (InvalidCapture count.toInt.toNat t) := by
    refine Ends.after (number_eq_ok_iff.mpr first) (Ends.after (number_eq_ok_iff.mpr second) ?_)
    rw [if_neg (Int32.not_lt.mpr positive)]
    refine Ends.after (a := t) rfl ?_
    rw [if_neg (Nat.not_lt.mpr enough)]
    refine Ends.bind (captures_ends enough) ?_
    rintro captured _ ⟨length, _⟩
    exact ⟨captured, rfl, length⟩
  exact Ends.after (a := s) rfl (Ends.after (byte_eq_ok_iff.mpr opcode) closure)

end Instruction

end BytecodeMachine
