import BytecodeMachine.Proofs.Instruction.Decode
/-!
# The language of the decoder

At every position of every code the decoder either reads an instruction, which is the one whose
binary form stands there, or ends with a fault. The only bytes that are not the form of what
they are read as are the other opcodes of the family of stops.

That no binary form goes on another one is not seen from the table of opcodes. It follows
from the decoder, which gives one answer to the longer form and would have to give two.
-/
namespace BytecodeMachine

namespace Cursor

/-- Bytes are passed over the part of the code that they are. A beginning of the rest is what is
taken from it, and the positions differ by its length. -/
theorem passes_iff_extract {code : Array UInt8} {pos n : Nat} {first : UInt8}
    {others : List UInt8} :
    Passes (first :: others) ⟨code, pos⟩ ⟨code, pos + n⟩ ↔
      pos + n ≤ code.size ∧ (code.extract pos (pos + n)).toList = first :: others := by
  have part : (code.extract pos (pos + n)).toList = (rest ⟨code, pos⟩).take n := by
    rw [Array.toList_extract, List.extract_eq_take_drop, Nat.add_sub_cancel_left]
    rfl
  have size : (rest ⟨code, pos⟩).length = code.size - pos := length_rest
  rw [part, Passes, List.prefix_iff_eq_take, Cursor.mk.injEq, Nat.add_left_cancel_iff]
  constructor
  · rintro ⟨stands, -, rfl⟩
    have length := congrArg List.length stands
    rw [List.length_take, size, List.length_cons] at length
    exact ⟨by rw [List.length_cons]; omega, stands.symm⟩
  · rintro ⟨inside, stands⟩
    have length := congrArg List.length stands
    rw [List.length_take, size] at length
    have count : n = (first :: others).length := by omega
    exact ⟨by rw [← count, stands], rfl, count⟩

/-- To pass one byte is to find it at the position and to move on by one. There is such a byte if
the code does not end at the position. -/
theorem passes_singleton_iff {code : Array UInt8} {pos n : Nat} {b : UInt8} :
    Passes [b] ⟨code, pos⟩ ⟨code, pos + n⟩ ↔ n = 1 ∧ code[pos]? = some b := by
  unfold Passes
  rw [Cursor.mk.injEq, Nat.add_left_cancel_iff, rest, ← Array.getElem?_toList,
    ← List.head?_drop]
  cases code.toList.drop pos with
  | nil => simp
  | cons first others =>
    simp only [List.cons_prefix_cons, List.nil_prefix, and_true, List.head?_cons, Option.some_inj,
      List.length_singleton, true_and]
    rw [and_comm, eq_comm (a := b)]

end Cursor

namespace Instruction

open Cursor BytecodeMachine.Action

variable {s t : Cursor} {instruction other : Instruction}

/-- No instruction is read, and the decoder ends with a fault. -/
def Refused (s : Cursor) : Prop := ∃ cause t, read s = .error cause t

/-- Either there is an instruction or there is a fault, so to be refused is to have no
instruction. -/
theorem refused_iff : Refused s ↔ ∀ instruction t, read s ≠ .ok instruction t := by
  unfold Refused
  cases read s with
  | ok found t => simp
  | error cause t => simp

/-- Decoding moves the position and leaves the code. -/
theorem read_leaves_code (done : read s = .ok instruction t) :
    ∃ n, t = ⟨s.code, s.pos + n⟩ := by
  obtain ⟨_, _, moved⟩ | ⟨_, _, _, _, moved⟩ := read_eq_ok_iff.mp done
  · exact ⟨_, moved⟩
  · exact ⟨_, moved⟩

/-- The bytes an instruction is read over, as a part of the code. They are its binary form, except
that a stop is read over any byte of its family. -/
theorem read_over_iff {code : Array UInt8} {pos n : Nat} :
    read ⟨code, pos⟩ = .ok instruction ⟨code, pos + n⟩ ↔
      instruction.CapturesFit ∧ pos + n ≤ code.size ∧
          (code.extract pos (pos + n)).toList = instruction.encode ∨
        instruction = .stop ∧ n = 1 ∧ ∃ b : UInt8, code[pos]? = some b ∧ b / 16 = 15 := by
  rw [read_eq_ok_iff, encode, passes_iff_extract]
  simp only [passes_singleton_iff]
  refine or_congr_right (and_congr_right fun _ => ?_)
  constructor
  · rintro ⟨b, family, one, there⟩
    exact ⟨one, b, there, family⟩
  · rintro ⟨one, b, there, family⟩
    exact ⟨b, family, one, there⟩

/-- Where a binary form stands, this instruction is read. -/
theorem read_of_stands (fits : instruction.CapturesFit) (stands : instruction.encode <+: s.rest) :
    read s = .ok instruction ⟨s.code, s.pos + instruction.encode.length⟩ :=
  read_eq_ok_iff.mpr (.inl ⟨fits, stands, rfl⟩)

/-- Code that is the longer form alone would be read as either instruction. -/
theorem eq_of_encode_prefix (fits : instruction.CapturesFit) (fits' : other.CapturesFit)
    (goesOn : instruction.encode <+: other.encode) : instruction = other := by
  have short := read_of_stands (s := ⟨other.encode.toArray, 0⟩) fits goesOn
  have long := read_of_stands (s := ⟨other.encode.toArray, 0⟩) fits' (List.prefix_refl _)
  rw [short] at long
  injection long

/-- Behind an opcode of this family a stop is read, whatever there is. An instruction with such an
opcode would be read back from its own operands, so it is the stop. -/
theorem eq_stop_of_opcode (fits : instruction.CapturesFit)
    (family : instruction.opcode / 16 = 15) : instruction = .stop := by
  have passes : Passes instruction.operands ⟨instruction.operands.toArray, 0⟩
      ⟨instruction.operands.toArray, 0 + instruction.operands.length⟩ :=
    ⟨List.prefix_refl _, rfl⟩
  have found := @readOperands_complete _ _ instruction 0 fits passes
  rw [readOperands_stop family] at found
  injection found with same
  exact same.symm

/-- What is read would be the form of an instruction and stand at the front of the form that is
cut off. Forms do not go on one another, so the whole form would be there. -/
theorem refused_of_cut_off (fits : instruction.CapturesFit) (stands : s.rest <+: instruction.encode)
    (shorter : s.rest ≠ instruction.encode) : Refused s := by
  refine refused_iff.mpr fun found t done => ?_
  obtain ⟨fits', passes, _⟩ | ⟨rfl, b, family, passes⟩ := read_eq_ok_iff.mp done
  · obtain rfl := eq_of_encode_prefix fits' fits (passes.trans stands)
    exact shorter (stands.eq_of_length_le passes.length_le)
  · obtain rfl : b = instruction.opcode :=
      (List.cons_prefix_cons.mp (passes.1.trans stands)).1
    obtain rfl := eq_stop_of_opcode fits family
    exact shorter (stands.eq_of_length_le passes.1.length_le)

section Opcodes

variable {b : UInt8}

/-- A position at which no operands can be read behind the opcode. The opcode is the byte that
stands there, and reading has nothing else to go on with. -/
theorem refused_of_readOperands (stands : [b] <+: s.rest)
    (never : ∀ offset instruction t,
      readOperands offset b ⟨s.code, s.pos + 1⟩ ≠ .ok instruction t) :
    Refused s := by
  refine refused_iff.mpr fun instruction t done => ?_
  simp only [read, bind_eq_ok_iff, byte_eq_ok_iff] at done
  obtain ⟨_, _, ⟨⟩, opcode, u, ⟨there, rfl⟩, behind⟩ := done
  have same : [opcode] = [b] :=
    (List.prefix_of_prefix_length_le there stands (Nat.le_refl 1)).eq_of_length rfl
  obtain rfl : opcode = b := List.singleton_inj.mp same
  exact never _ _ _ behind

/-- Behind the opcode only instructions with this opcode are read, or stops of its family. If there
are neither, there is no instruction. -/
theorem refused_of_opcode (stands : [b] <+: s.rest) (family : b / 16 ≠ 15)
    (unknown : ∀ instruction : Instruction, instruction.opcode ≠ b) : Refused s := by
  refine refused_of_readOperands stands fun offset instruction t done => ?_
  obtain code | ⟨_, stops⟩ := (readOperands_sound done).opcode
  · exact unknown instruction code
  · exact family stops

/-- The families about variables read nothing for a code that is no storage. Whichever of the three
it is, the variable it would be read with has a storage of this code. -/
theorem refused_of_storage (stands : [b] <+: s.rest)
    (family : b / 16 = 2 ∨ b / 16 = 3 ∨ b / 16 = 4)
    (unknown : ∀ storage : Storage, storage.code ≠ b % 16) : Refused s := by
  refine refused_of_readOperands stands fun offset instruction t done => ?_
  unfold readOperands at done
  obtain high | high | high := family
  all_goals
    rw [high] at done
    obtain ⟨name, _, storage, _⟩ := oneVariable_eq_ok_iff.mp done
    exact unknown name.storage storage

/-- The family of patterns has no member for any other code. -/
theorem refused_of_pattern (stands : [b] <+: s.rest) (family : b / 16 = 6)
    (unknown : ∀ pattern : Pattern, pattern.code ≠ b % 16) : Refused s := by
  refine refused_of_readOperands stands fun offset instruction t done => ?_
  unfold readOperands at done
  rw [family] at done
  obtain ⟨choice, _⟩ := selected_eq_ok_iff.mp done
  obtain ⟨pattern, found, _⟩ := Option.map_eq_some_iff.mp choice
  exact unknown pattern (pattern_code_of_ofCode? found)

/-- Where the captures of a closure go on, the storage of one of them stands next. Proof:
induction on the captures that are known; all have five bytes, so those that stand there are
passed in step. -/
theorem storage_of_captures {captured names : List Variable} {bytes : List UInt8}
    (stands : captured.flatMap Variable.encode ++ [b] <+: bytes)
    (found : names.flatMap Variable.encode <+: bytes) (more : captured.length < names.length) :
    ∃ storage : Storage, storage.code = b := by
  induction captured generalizing names bytes with
  | nil =>
    obtain ⟨name, names, rfl⟩ := List.exists_cons_of_length_pos more
    rw [List.flatMap_cons, append_prefix_iff] at found
    obtain ⟨others, rfl⟩ := found.1
    exact ⟨name.storage, (List.cons_prefix_cons.mp stands).1.symm⟩
  | cons first captured later =>
    obtain ⟨name, names, rfl⟩ := List.exists_cons_of_length_pos (Nat.zero_lt_of_lt more)
    rw [List.flatMap_cons, append_prefix_iff] at found
    rw [List.flatMap_cons, List.append_assoc, append_prefix_iff] at stands
    exact later stands.2 found.2 (Nat.lt_of_succ_lt_succ more)

/-- A closure is not read if a byte that is no storage stands where a storage should. The numbers
before it are those that are read, so the count says that another capture is wanted. -/
theorem refused_of_capture {target count : Int32} {captured : List Variable}
    (stands : 0x54 :: (LittleEndian.encode target ++ LittleEndian.encode count ++
      (captured.flatMap Variable.encode ++ [b])) <+: s.rest)
    (more : (captured.length : Int) < count.toInt)
    (unknown : ∀ storage : Storage, storage.code ≠ b) : Refused s := by
  have parts := (@append_prefix_iff _ [0x54] _ _).mp stands
  have opcode : [0x54] <+: s.rest := parts.1
  have behind : LittleEndian.encode target ++ LittleEndian.encode count ++
      (captured.flatMap Variable.encode ++ [b]) <+: s.rest.drop 1 := parts.2
  refine refused_of_readOperands opcode fun offset instruction t done => ?_
  have shape : readOperands offset 0x54 = readClosure offset := rfl
  rw [shape] at done
  obtain ⟨target', captured', rfl, fits, found, _⟩ := readClosure_eq_ok_iff.mp done
  have next : rest ⟨s.code, s.pos + 1⟩ = s.rest.drop 1 := by rw [rest, rest, List.drop_drop]
  rw [next] at found
  obtain ⟨head, later⟩ := append_prefix_iff.mp behind
  obtain ⟨head', later'⟩ := append_prefix_iff.mp found
  have numbers := (List.prefix_of_prefix_length_le head head' (Nat.le_refl 8)).eq_of_length rfl
  have counts := (List.append_inj numbers rfl).2
  rw [LittleEndian.encode_injective counts, toInt_ofNat fits] at more
  obtain ⟨storage, code⟩ := storage_of_captures later later' (Int.ofNat_lt.mp more)
  exact unknown storage code

end Opcodes

/-- The decoder reads the language of binary forms. At each position
* an instruction is read over some bytes exactly if they are its form, or if it is a stop and
  the one byte is an opcode of the family of stops;
* what is read leaves the cursor behind these bytes and, unless it is a stop, is written as
  these bytes again;
* a form that is cut off, an opcode, a storage or a pattern that does not exist are refused.

No form goes on another one. -/
theorem read_language (code : Array UInt8) (pos : Nat) :
    (∀ instruction n, read ⟨code, pos⟩ = .ok instruction ⟨code, pos + n⟩ ↔
      instruction.CapturesFit ∧ pos + n ≤ code.size ∧
          (code.extract pos (pos + n)).toList = instruction.encode ∨
        instruction = .stop ∧ n = 1 ∧ ∃ b : UInt8, code[pos]? = some b ∧ b / 16 = 15) ∧
    (∀ instruction t, read ⟨code, pos⟩ = .ok instruction t → ∃ n, t = ⟨code, pos + n⟩ ∧
      (instruction = .stop ∨ (code.extract pos (pos + n)).toList = instruction.encode)) ∧
    (∀ instruction : Instruction, instruction.CapturesFit →
      rest ⟨code, pos⟩ <+: instruction.encode → rest ⟨code, pos⟩ ≠ instruction.encode →
        Refused ⟨code, pos⟩) ∧
    (∀ b : UInt8, code[pos]? = some b → b / 16 ≠ 15 →
      (∀ instruction : Instruction, instruction.opcode ≠ b) → Refused ⟨code, pos⟩) ∧
    (∀ b : UInt8, code[pos]? = some b → b / 16 = 2 ∨ b / 16 = 3 ∨ b / 16 = 4 →
      (∀ storage : Storage, storage.code ≠ b % 16) → Refused ⟨code, pos⟩) ∧
    (∀ (target count : Int32) (captured : List Variable) (b : UInt8),
      0x54 :: (LittleEndian.encode target ++ LittleEndian.encode count ++
        (captured.flatMap Variable.encode ++ [b])) <+: rest ⟨code, pos⟩ →
      (captured.length : Int) < count.toInt →
      (∀ storage : Storage, storage.code ≠ b) → Refused ⟨code, pos⟩) ∧
    (∀ b : UInt8, code[pos]? = some b → b / 16 = 6 →
      (∀ pattern : Pattern, pattern.code ≠ b % 16) → Refused ⟨code, pos⟩) ∧
    (∀ instruction other : Instruction, instruction.CapturesFit → other.CapturesFit →
      instruction.encode <+: other.encode → instruction = other) := by
  have stands {b : UInt8} (there : code[pos]? = some b) : [b] <+: rest ⟨code, pos⟩ :=
    (passes_singleton_iff.mpr ⟨rfl, there⟩).1
  refine ⟨fun _ _ => read_over_iff, ?_, ?_, ?_, ?_, ?_, ?_, ?_⟩
  · intro instruction t done
    obtain ⟨n, rfl⟩ := read_leaves_code done
    refine ⟨n, rfl, ?_⟩
    obtain ⟨_, _, same⟩ | ⟨stop, _⟩ := read_over_iff.mp done
    · exact .inr same
    · exact .inl stop
  · exact fun instruction => refused_of_cut_off
  · exact fun b there => refused_of_opcode (stands there)
  · exact fun b there => refused_of_storage (stands there)
  · exact fun target count captured b => refused_of_capture
  · exact fun b there => refused_of_pattern (stands there)
  · exact fun instruction other => eq_of_encode_prefix

/-- A stop that is not written again as it was read. -/
example : read ⟨#[0xF0], 0⟩ = .ok .stop ⟨#[0xF0], 1⟩ := rfl

end Instruction

end BytecodeMachine
