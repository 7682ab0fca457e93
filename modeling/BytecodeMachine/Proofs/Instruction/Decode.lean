import BytecodeMachine.Instruction.Decode
import BytecodeMachine.Instruction.Encode
import BytecodeMachine.Proofs.Action
import BytecodeMachine.Proofs.LittleEndian
/-!
# Decoding accepts what encoding writes

A cursor passes bytes if they stand at it and it is moved behind them. Passing one byte string
after another is passing both at once, so what an action of the decoder accepts is put
together from what its parts accept.

An instruction is read exactly by passing its binary form, and a stop also by passing any
other byte of its family. Encoding is not read off the decoder, nor the decoder off the
encoding: the two meet in the opcodes, family by family.
-/
namespace BytecodeMachine

open BytecodeMachine.Action

namespace Cursor

/-- The bytes that have not been read. -/
def rest (cursor : Cursor) : List UInt8 := cursor.code.toList.drop cursor.pos

/-- These bytes stand at the one cursor, and the other is behind them. -/
def Passes (bytes : List UInt8) (s t : Cursor) : Prop :=
  bytes <+: s.rest ∧ t = ⟨s.code, s.pos + bytes.length⟩

variable {s t : Cursor} {bytes front behind : List UInt8}

/-- As many bytes are left as remain. -/
theorem length_rest : s.rest.length = s.remaining := by
  rw [rest, List.length_drop, Array.length_toList, remaining]

/-- To pass no bytes is to stay. -/
@[simp]
theorem passes_nil : Passes [] s t ↔ t = s := by
  simp [Passes]

/-- To pass bytes in two parts is to pass the one and then the other, from the position in
between. -/
theorem passes_append :
    Passes (front ++ behind) s t ↔ ∃ u, Passes front s u ∧ Passes behind u t := by
  unfold Passes rest
  rw [append_prefix_iff, List.drop_drop, List.length_append]
  constructor
  · rintro ⟨⟨first, second⟩, rfl⟩
    exact ⟨_, ⟨first, rfl⟩, second, by rw [Nat.add_assoc]⟩
  · rintro ⟨_, ⟨first, rfl⟩, second, rfl⟩
    exact ⟨⟨first, second⟩, by rw [Nat.add_assoc]⟩

/-- What is passed was left. -/
theorem Passes.length_le (passes : Passes bytes s t) : bytes.length ≤ s.remaining := by
  have length := passes.1.length_le
  rw [length_rest] at length
  exact length

/-- Reading a byte answers the one that is passed. This and the next lemma are all that the decoder
asks of the code, so from here on instructions are told by the bytes they pass. -/
theorem byte_eq_ok_iff {b : UInt8} : byte s = .ok b t ↔ Passes [b] s t := by
  obtain ⟨code, pos⟩ := s
  unfold Passes rest byte
  by_cases inside : pos < code.size
  · simp only [inside, dif_pos, EStateM.Result.ok.injEq]
    rw [List.drop_eq_getElem_cons (by simpa using inside), List.cons_prefix_cons]
    simp [eq_comm]
  · simp only [inside, dif_neg, not_false_eq_true, reduceCtorEq, false_iff]
    rintro ⟨there, _⟩
    have length := there.length_le
    simp only [List.length_singleton, List.length_drop, Array.length_toList] at length
    omega

/-- Reading a number answers the one whose encoding is passed: four bytes are decoded, and decoding
and encoding are inverse to each other. -/
theorem number_eq_ok_iff {k : Int32} : number s = .ok k t ↔ Passes (LittleEndian.encode k) s t := by
  obtain ⟨code, pos⟩ := s
  unfold Passes rest number
  by_cases inside : pos + 4 ≤ code.size
  · have four : code.toList.drop pos = [code[pos], code[pos + 1], code[pos + 2], code[pos + 3]] ++
        code.toList.drop (pos + 4) := by
      rw [List.drop_eq_getElem_cons (by rw [Array.length_toList]; omega),
        List.drop_eq_getElem_cons (by rw [Array.length_toList]; omega),
        List.drop_eq_getElem_cons (by rw [Array.length_toList]; omega),
        List.drop_eq_getElem_cons (by rw [Array.length_toList]; omega)]
      simp
    simp only [inside, dif_pos, EStateM.Result.ok.injEq, LittleEndian.decode_eq_iff]
    rw [four, prefix_append_iff_eq _ _ (LittleEndian.length_encode k)]
    exact and_congr_right fun _ => eq_comm
  · simp only [inside, dif_neg, not_false_eq_true, reduceCtorEq, false_iff]
    rintro ⟨there, _⟩
    have length := there.length_le
    simp only [LittleEndian.length_encode, List.length_drop, Array.length_toList] at length
    omega

/-- An answer alone leaves the cursor where it is. The sides are turned round so that the answer is
what is substituted. -/
theorem pure_eq_ok_iff {α : Type} {a b : α} :
    (pure a : Action Cursor α) s = .ok b t ↔ b = a ∧ t = s := by
  simp only [pure, EStateM.pure, EStateM.Result.ok.injEq]
  exact and_congr eq_comm eq_comm

/-- A code stands for the storage that has it. -/
theorem storage_ofCode?_eq_some_iff {code : UInt8} {storage : Storage} :
    Storage.ofCode? code = some storage ↔ storage.code = code := by
  constructor
  · intro found
    unfold Storage.ofCode? at found
    split at found <;> cases found <;> rfl
  · rintro rfl
    exact storage.ofCode?_code

/-- A variable is read if its storage has the code, and then its index is passed. The storage has
no bytes of its own here: it is half of a byte that has been read before. -/
theorem variableIn_eq_ok_iff {code : UInt8} {name : Variable} :
    variableIn code s = .ok name t ↔
      name.storage.code = code ∧ Passes (LittleEndian.encode name.index) s t := by
  obtain ⟨storage, index⟩ := name
  unfold variableIn
  rw [← storage_ofCode?_eq_some_iff]
  cases Storage.ofCode? code with
  | none => simp
  | some found =>
    simp only [bind_eq_ok_iff, number_eq_ok_iff, pure_eq_ok_iff, Option.some_inj,
      Variable.mk.injEq]
    constructor
    · rintro ⟨_, _, passes, ⟨rfl, rfl⟩, rfl⟩
      exact ⟨rfl, passes⟩
    · rintro ⟨rfl, passes⟩
      exact ⟨_, _, passes, ⟨rfl, rfl⟩, rfl⟩

/-- Captures are read one behind another, each a byte and a number. Proof: induction on their
count, where passing the first one and then the rest is passing both in a row. -/
theorem captures_eq_ok_iff {count : Nat} {names : List Variable} :
    captures count s = .ok names t ↔
      names.length = count ∧ Passes (names.flatMap Variable.encode) s t := by
  induction count generalizing s t names with
  | zero =>
    simp only [captures, pure_eq_ok_iff, List.length_eq_zero_iff]
    constructor
    · rintro ⟨rfl, rfl⟩
      exact ⟨rfl, passes_nil.mpr rfl⟩
    · rintro ⟨rfl, passes⟩
      exact ⟨rfl, passes_nil.mp passes⟩
  | succ count later =>
    simp only [captures, bind_eq_ok_iff, byte_eq_ok_iff, variableIn_eq_ok_iff, later,
      pure_eq_ok_iff]
    constructor
    · rintro ⟨b, u, first, name, v, ⟨rfl, index⟩, names, w, ⟨length, rest⟩, rfl, rfl⟩
      refine ⟨by rw [List.length_cons, length], ?_⟩
      rw [List.flatMap_cons]
      refine passes_append.mpr ⟨v, ?_, rest⟩
      exact passes_append.mpr ⟨u, first, index⟩
    · rintro ⟨length, passes⟩
      obtain ⟨name, names, rfl⟩ := List.exists_cons_of_length_eq_add_one length
      rw [List.flatMap_cons] at passes
      obtain ⟨v, front, rest⟩ := passes_append.mp passes
      obtain ⟨u, first, index⟩ := @passes_append _ _ [_] _ |>.mp front
      rw [List.length_cons, Nat.add_right_cancel_iff] at length
      exact ⟨_, u, first, name, v, ⟨rfl, index⟩, names, t, ⟨length, rest⟩, rfl, rfl⟩

end Cursor

namespace Instruction

open Cursor

variable {s t : Cursor} {instruction : Instruction} {offset : Nat}

/-- The number of captures of a closure can be kept in a signed number. -/
def CapturesFit : Instruction → Prop
  | .closure _ captured => captured.length < 2147483648
  | _ => True

/-- A captured variable takes a byte and a number. -/
theorem length_captured (captured : List Variable) :
    (captured.flatMap Variable.encode).length = captured.length * 5 := by
  induction captured with
  | nil => rfl
  | cons name rest later =>
    rw [List.flatMap_cons, List.length_append, later, List.length_cons]
    change 5 + rest.length * 5 = (rest.length + 1) * 5
    omega

/-- The count of captures is looked at before they are read, which refuses nothing that could be
read. -/
theorem readClosure_eq_ok_iff :
    readClosure offset s = .ok instruction t ↔
      ∃ target captured, instruction = .closure target captured ∧ instruction.CapturesFit ∧
        Passes instruction.operands s t := by
  simp only [readClosure, bind_eq_ok_iff, number_eq_ok_iff]
  constructor
  · rintro ⟨target, u, first, count, v, second, done⟩
    split at done
    · obtain ⟨_, _, ⟨⟩, _⟩ := bind_eq_ok_iff.mp done
    · next positive =>
      obtain ⟨_, _, ⟨⟩, done⟩ := bind_eq_ok_iff.mp done
      split at done
      · obtain ⟨_, _, ⟨⟩, _⟩ := bind_eq_ok_iff.mp done
      · simp only [bind_eq_ok_iff, captures_eq_ok_iff, pure_eq_ok_iff] at done
        obtain ⟨captured, w, ⟨length, third⟩, rfl, rfl⟩ := done
        have number : Int32.ofNat captured.length = count := by
          rw [length, ofNat_toNat (Int32.not_lt.mp positive)]
        refine ⟨target, captured, rfl, ?_, ?_⟩
        · change captured.length < 2147483648
          rw [length]
          exact toNat_lt count
        · refine passes_append.mpr ⟨v, passes_append.mpr ⟨u, first, ?_⟩, third⟩
          rw [number]
          exact second
  · rintro ⟨target, captured, rfl, fits, passes⟩
    obtain ⟨v, front, third⟩ := passes_append.mp passes
    obtain ⟨u, first, second⟩ := passes_append.mp front
    have enough := third.length_le
    rw [length_captured] at enough
    refine ⟨target, u, first, _, v, second, ?_⟩
    rw [if_neg (Int32.not_lt.mpr (ofNat_nonneg fits)), toNat_ofNat fits]
    refine bind_eq_ok_iff.mpr ⟨v, v, rfl, ?_⟩
    rw [if_neg (by omega)]
    exact bind_eq_ok_iff.mpr ⟨captured, t, captures_eq_ok_iff.mpr ⟨rfl, third⟩, rfl⟩

/-- An instruction with one operand is made from the number passed. Nothing is checked of the
number, so each one that stands there gives an instruction. -/
theorem oneNumber_eq_ok_iff {make : Int32 → Instruction} :
    (do return make (← number)) s = .ok instruction t ↔
      ∃ a, instruction = make a ∧ Passes (LittleEndian.encode a) s t := by
  simp only [bind_eq_ok_iff, number_eq_ok_iff, pure_eq_ok_iff]
  constructor
  · rintro ⟨a, _, passes, rfl, rfl⟩
    exact ⟨a, rfl, passes⟩
  · rintro ⟨a, rfl, passes⟩
    exact ⟨a, t, passes, rfl, rfl⟩

/-- One with two operands is made from both, in their order. The second one starts where the first
one ends, and together they pass the two encodings at once. -/
theorem twoNumbers_eq_ok_iff {make : Int32 → Int32 → Instruction} :
    (do return make (← number) (← number)) s = .ok instruction t ↔
      ∃ a b, instruction = make a b ∧
        Passes (LittleEndian.encode a ++ LittleEndian.encode b) s t := by
  simp only [bind_eq_ok_iff, number_eq_ok_iff, pure_eq_ok_iff, passes_append]
  constructor
  · rintro ⟨a, u, first, b, _, second, rfl, rfl⟩
    exact ⟨a, b, rfl, u, first, second⟩
  · rintro ⟨a, b, rfl, u, first, second⟩
    exact ⟨a, u, first, b, t, second, rfl, rfl⟩

/-- One about a variable is made from the variable of the storage that the opcode names. The only
way to fail before the index is a code that is no storage. -/
theorem oneVariable_eq_ok_iff {make : Variable → Instruction} {code : UInt8} :
    (do return make (← variableIn code)) s = .ok instruction t ↔
      ∃ name, instruction = make name ∧ name.storage.code = code ∧
        Passes (LittleEndian.encode name.index) s t := by
  simp only [bind_eq_ok_iff, variableIn_eq_ok_iff, pure_eq_ok_iff]
  constructor
  · rintro ⟨name, _, ⟨storage, passes⟩, rfl, rfl⟩
    exact ⟨name, rfl, storage, passes⟩
  · rintro ⟨name, rfl, storage, passes⟩
    exact ⟨name, t, ⟨storage, passes⟩, rfl, rfl⟩

/-- A selection answers the instruction selected, if there is one, and passes nothing. -/
theorem selected_eq_ok_iff {invalid : Fault} {choice : Option Instruction} :
    selected invalid choice s = .ok instruction t ↔ choice = some instruction ∧ t = s := by
  cases choice with
  | none => simp [selected]
  | some found =>
    simp only [selected, pure_eq_ok_iff, Option.some_inj]
    exact and_congr_left fun _ => eq_comm

/-- What has been read behind an opcode has this opcode, or is a stop and the opcode is one of its
family. -/
structure ReadBehind (opcode : UInt8) (instruction : Instruction) (s t : Cursor) : Prop where
  opcode : instruction.opcode = opcode ∨ instruction = .stop ∧ opcode / 16 = 15
  fits : instruction.CapturesFit
  passes : Passes instruction.operands s t

/-- An opcode is its two halves. -/
theorem eq_of_halves {opcode high low : UInt8} (upper : opcode / 16 = high)
    (lower : opcode % 16 = low) : opcode = high * 16 + low := by
  subst upper lower
  apply UInt8.toNat_inj.mp
  simp only [UInt8.toNat_add, UInt8.toNat_mul, UInt8.toNat_div, UInt8.toNat_mod, UInt8.reduceToNat]
  have bound := opcode.toNat_lt
  omega

section Members

variable {opcode : UInt8}

/-- Instructions without operands: nothing is passed. -/
theorem ReadBehind.plain {found : Instruction}
    (done : (pure found : Action Cursor Instruction) s = .ok instruction t)
    (code : found.opcode = opcode) (operands : found.operands = []) (fits : found.CapturesFit) :
    ReadBehind opcode instruction s t := by
  obtain ⟨rfl, rfl⟩ := pure_eq_ok_iff.mp done
  refine ⟨.inl code, fits, ?_⟩
  rw [operands]
  exact passes_nil.mpr rfl

/-- Instructions with one operand pass its encoding. The opcode is that of the family whatever the
operand is, and there are no captures whose number would have to fit. -/
theorem ReadBehind.oneNumber {make : Int32 → Instruction}
    (done : (do return make (← number)) s = .ok instruction t)
    (code : ∀ a, (make a).opcode = opcode)
    (operands : ∀ a, (make a).operands = LittleEndian.encode a)
    (fits : ∀ a, (make a).CapturesFit) :
    ReadBehind opcode instruction s t := by
  obtain ⟨a, rfl, passes⟩ := oneNumber_eq_ok_iff.mp done
  refine ⟨.inl (code a), fits a, ?_⟩
  rw [operands]
  exact passes

/-- Instructions with two operands pass the one encoding behind the other. As with one operand,
what is to be known of the family does not depend on the numbers. -/
theorem ReadBehind.twoNumbers {make : Int32 → Int32 → Instruction}
    (done : (do return make (← number) (← number)) s = .ok instruction t)
    (code : ∀ a b, (make a b).opcode = opcode)
    (operands : ∀ a b, (make a b).operands = LittleEndian.encode a ++ LittleEndian.encode b)
    (fits : ∀ a b, (make a b).CapturesFit) :
    ReadBehind opcode instruction s t := by
  obtain ⟨a, b, rfl, passes⟩ := twoNumbers_eq_ok_iff.mp done
  refine ⟨.inl (code a b), fits a b, ?_⟩
  rw [operands]
  exact passes

/-- Instructions about a variable have the storage in the lower half of the opcode and pass the
index. -/
theorem ReadBehind.oneVariable {make : Variable → Instruction} {high : UInt8}
    (done : (do return make (← variableIn (opcode % 16))) s = .ok instruction t)
    (family : opcode / 16 = high)
    (code : ∀ name, (make name).opcode = high * 16 + name.storage.code)
    (operands : ∀ name, (make name).operands = LittleEndian.encode name.index)
    (fits : ∀ name, (make name).CapturesFit) :
    ReadBehind opcode instruction s t := by
  obtain ⟨name, rfl, storage, passes⟩ := oneVariable_eq_ok_iff.mp done
  refine ⟨.inl ?_, fits name, ?_⟩
  · rw [code, storage, ← eq_of_halves family rfl]
  · rw [operands]
    exact passes

end Members

/-- The first family, member by member: each one is of one of the shapes above, and a member that
is missing has been refused. -/
theorem readBasic_sound {opcode member : UInt8} {invalid : Fault} (family : opcode / 16 = 1)
    (low : opcode % 16 = member) (done : readBasic invalid member s = .ok instruction t) :
    ReadBehind opcode instruction s t := by
  have code := eq_of_halves family low
  unfold readBasic at done
  split at done
  · exact .oneNumber done (fun _ => code.symm) (fun _ => rfl) fun _ => trivial
  · exact .oneNumber done (fun _ => code.symm) (fun _ => rfl) fun _ => trivial
  · exact .twoNumbers done (fun _ _ => code.symm) (fun _ _ => rfl) fun _ _ => trivial
  · exact .plain done code.symm rfl trivial
  · exact .plain done code.symm rfl trivial
  · exact .oneNumber done (fun _ => code.symm) (fun _ => rfl) fun _ => trivial
  · exact .plain done code.symm rfl trivial
  · exact .plain done code.symm rfl trivial
  · exact .plain done code.symm rfl trivial
  · exact .plain done code.symm rfl trivial
  · exact .plain done code.symm rfl trivial
  · exact .plain done code.symm rfl trivial
  · cases done

/-- The family of control, in the same way. Closures are of none of those shapes, as their captured
variables are as many as they say, and what is read of them has been told above. -/
theorem readControl_sound {opcode member : UInt8} {invalid : Fault} (family : opcode / 16 = 5)
    (low : opcode % 16 = member) (done : readControl invalid offset member s = .ok instruction t) :
    ReadBehind opcode instruction s t := by
  have code := eq_of_halves family low
  unfold readControl at done
  split at done
  · exact .oneNumber done (fun _ => code.symm) (fun _ => rfl) fun _ => trivial
  · exact .oneNumber done (fun _ => code.symm) (fun _ => rfl) fun _ => trivial
  · exact .twoNumbers done (fun _ _ => code.symm) (fun _ _ => rfl) fun _ _ => trivial
  · exact .twoNumbers done (fun _ _ => code.symm) (fun _ _ => rfl) fun _ _ => trivial
  · obtain ⟨target, captured, rfl, fits, passes⟩ := readClosure_eq_ok_iff.mp done
    exact ⟨.inl code.symm, fits, passes⟩
  · exact .oneNumber done (fun _ => code.symm) (fun _ => rfl) fun _ => trivial
  · exact .twoNumbers done (fun _ _ => code.symm) (fun _ _ => rfl) fun _ _ => trivial
  · exact .twoNumbers done (fun _ _ => code.symm) (fun _ _ => rfl) fun _ _ => trivial
  · exact .oneNumber done (fun _ => code.symm) (fun _ => rfl) fun _ => trivial
  · exact .twoNumbers done (fun _ _ => code.symm) (fun _ _ => rfl) fun _ _ => trivial
  · exact .oneNumber done (fun _ => code.symm) (fun _ => rfl) fun _ => trivial
  · cases done

/-- The family of built-in functions, of which one has an operand. The cases are those of the low
half of the opcode, and the last one is that of no built-in function. -/
theorem readBuiltin_sound {opcode member : UInt8} {invalid : Fault} (family : opcode / 16 = 7)
    (low : opcode % 16 = member) (done : readBuiltin invalid member s = .ok instruction t) :
    ReadBehind opcode instruction s t := by
  have code := eq_of_halves family low
  unfold readBuiltin at done
  split at done
  · exact .plain done code.symm rfl trivial
  · exact .plain done code.symm rfl trivial
  · exact .plain done code.symm rfl trivial
  · exact .plain done code.symm rfl trivial
  · exact .oneNumber done (fun _ => code.symm) (fun _ => rfl) fun _ => trivial
  · cases done

/-- An operator found by a code has this code. -/
theorem operator_code_of_ofCode? {code : UInt8} {operator : Operator}
    (found : Operator.ofCode? code = some operator) : operator.code = code := by
  unfold Operator.ofCode? at found
  split at found <;> cases found <;> rfl

/-- So has a pattern. -/
theorem pattern_code_of_ofCode? {code : UInt8} {pattern : Pattern}
    (found : Pattern.ofCode? code = some pattern) : pattern.code = code := by
  unfold Pattern.ofCode? at found
  split at found <;> cases found <;> rfl

/-- Each family of opcodes leads to instructions of this family. Proof: by the upper half of the
opcode. Families with one shape are that shape, those with several have been told above, and
operators and patterns are selected by the lower half. -/
theorem readOperands_sound {opcode : UInt8}
    (done : readOperands offset opcode s = .ok instruction t) :
    ReadBehind opcode instruction s t := by
  unfold readOperands at done
  generalize family : opcode / 16 = high at done
  split at done
  · obtain ⟨choice, rfl⟩ := selected_eq_ok_iff.mp done
    obtain ⟨operator, found, rfl⟩ := Option.map_eq_some_iff.mp choice
    have code := operator_code_of_ofCode? found
    refine ⟨.inl ?_, trivial, passes_nil.mpr rfl⟩
    rw [eq_of_halves family rfl, ← code, UInt8.zero_mul, UInt8.zero_add]
    rfl
  · exact readBasic_sound family rfl done
  · exact .oneVariable done family (fun _ => rfl) (fun _ => rfl) fun _ => trivial
  · exact .oneVariable done family (fun _ => rfl) (fun _ => rfl) fun _ => trivial
  · exact .oneVariable done family (fun _ => rfl) (fun _ => rfl) fun _ => trivial
  · exact readControl_sound family rfl done
  · obtain ⟨choice, rfl⟩ := selected_eq_ok_iff.mp done
    obtain ⟨pattern, found, rfl⟩ := Option.map_eq_some_iff.mp choice
    have code := pattern_code_of_ofCode? found
    refine ⟨.inl ?_, trivial, passes_nil.mpr rfl⟩
    rw [eq_of_halves family rfl, ← code]
    rfl
  · exact readBuiltin_sound family rfl done
  · obtain ⟨rfl, rfl⟩ := pure_eq_ok_iff.mp done
    exact ⟨.inr ⟨rfl, family⟩, trivial, passes_nil.mpr rfl⟩
  · cases done

section Members

variable {opcode : UInt8} {a b : Int32}

/-- The other direction, shape by shape. An opcode whose reader only answers is read from no
bytes. -/
theorem reads_plain (opcode : UInt8) {found : Instruction}
    (shape : readOperands offset opcode = pure found) (passes : Passes [] s t) :
    readOperands offset opcode s = .ok found t := by
  rw [shape]
  exact pure_eq_ok_iff.mpr ⟨rfl, passes_nil.mp passes⟩

/-- A member that is selected is read from no bytes either. -/
theorem reads_selected {found : Instruction}
    (shape : readOperands offset opcode =
      selected (.code (.invalidOpcode opcode offset)) (some found))
    (passes : Passes [] s t) :
    readOperands offset opcode s = .ok found t := by
  rw [shape]
  exact selected_eq_ok_iff.mpr ⟨rfl, passes_nil.mp passes⟩

/-- With the encoding of a number behind the opcode, the instruction with this operand is read. -/
theorem reads_oneNumber (opcode : UInt8) {make : Int32 → Instruction}
    (shape : readOperands offset opcode = do return make (← number))
    (passes : Passes (LittleEndian.encode a) s t) :
    readOperands offset opcode s = .ok (make a) t := by
  rw [shape]
  exact oneNumber_eq_ok_iff.mpr ⟨a, rfl, passes⟩

/-- With two encodings, the instruction with both. -/
theorem reads_twoNumbers (opcode : UInt8) {make : Int32 → Int32 → Instruction}
    (shape : readOperands offset opcode = do return make (← number) (← number))
    (passes : Passes (LittleEndian.encode a ++ LittleEndian.encode b) s t) :
    readOperands offset opcode s = .ok (make a b) t := by
  rw [shape]
  exact twoNumbers_eq_ok_iff.mpr ⟨a, b, rfl, passes⟩

/-- With the encoding of an index, the instruction about the variable of that storage. -/
theorem reads_oneVariable {make : Variable → Instruction} {name : Variable}
    (shape : readOperands offset opcode = do return make (← variableIn name.storage.code))
    (passes : Passes (LittleEndian.encode name.index) s t) :
    readOperands offset opcode s = .ok (make name) t := by
  rw [shape]
  exact oneVariable_eq_ok_iff.mpr ⟨name, rfl, rfl, passes⟩

end Members

/-- Behind its opcode, an instruction is read by passing its operands. Proof: by cases on the
instruction, whose opcode selects its own reader; each reader is one of the shapes above. -/
theorem readOperands_complete (fits : instruction.CapturesFit)
    (passes : Passes instruction.operands s t) :
    readOperands offset instruction.opcode s = .ok instruction t := by
  cases instruction with
  | binary operator =>
    have shape : readOperands offset operator.code =
        selected (.code (.invalidOpcode operator.code offset)) (some (binary operator)) := by
      cases operator <;> rfl
    exact reads_selected shape passes
  | constant a => exact reads_oneNumber 0x10 rfl passes
  | string a => exact reads_oneNumber 0x11 rfl passes
  | aggregate a b => exact reads_twoNumbers 0x12 rfl passes
  | storeThrough => exact reads_plain 0x13 rfl passes
  | storeElement => exact reads_plain 0x14 rfl passes
  | jump a => exact reads_oneNumber 0x15 rfl passes
  | leave => exact reads_plain 0x16 rfl passes
  | ret => exact reads_plain 0x17 rfl passes
  | drop => exact reads_plain 0x18 rfl passes
  | duplicate => exact reads_plain 0x19 rfl passes
  | swap => exact reads_plain 0x1A rfl passes
  | element => exact reads_plain 0x1B rfl passes
  | load name =>
    have shape : readOperands offset (0x20 + name.storage.code) =
        (do return load (← variableIn name.storage.code)) := by
      cases name.storage <;> rfl
    exact reads_oneVariable shape passes
  | loadPlace name =>
    have shape : readOperands offset (0x30 + name.storage.code) =
        (do return loadPlace (← variableIn name.storage.code)) := by
      cases name.storage <;> rfl
    exact reads_oneVariable shape passes
  | store name =>
    have shape : readOperands offset (0x40 + name.storage.code) =
        (do return store (← variableIn name.storage.code)) := by
      cases name.storage <;> rfl
    exact reads_oneVariable shape passes
  | jumpIfZero a => exact reads_oneNumber 0x50 rfl passes
  | jumpUnlessZero a => exact reads_oneNumber 0x51 rfl passes
  | enter a b => exact reads_twoNumbers 0x52 rfl passes
  | enterClosure a b => exact reads_twoNumbers 0x53 rfl passes
  | closure target captured =>
    have shape : readOperands offset 0x54 = readClosure offset := rfl
    change readOperands offset 0x54 s = _
    rw [shape]
    exact readClosure_eq_ok_iff.mpr ⟨target, captured, rfl, fits, passes⟩
  | callClosure a => exact reads_oneNumber 0x55 rfl passes
  | call a b => exact reads_twoNumbers 0x56 rfl passes
  | matchAggregate a b => exact reads_twoNumbers 0x57 rfl passes
  | matchArray a => exact reads_oneNumber 0x58 rfl passes
  | failure a b => exact reads_twoNumbers 0x59 rfl passes
  | line a => exact reads_oneNumber 0x5A rfl passes
  | test pattern =>
    have shape : readOperands offset (0x60 + pattern.code) =
        selected (.code (.invalidOpcode (0x60 + pattern.code) offset)) (some (test pattern)) := by
      cases pattern <;> rfl
    exact reads_selected shape passes
  | readNumber => exact reads_plain 0x70 rfl passes
  | writeNumber => exact reads_plain 0x71 rfl passes
  | length => exact reads_plain 0x72 rfl passes
  | print => exact reads_plain 0x73 rfl passes
  | array a => exact reads_oneNumber 0x74 rfl passes
  | stop => exact reads_plain 0xFF rfl passes

/-- Any opcode of its family is a stop. -/
theorem readOperands_stop {opcode : UInt8} (family : opcode / 16 = 15) :
    readOperands offset opcode s = .ok .stop s := by
  simp only [readOperands, family]
  rfl

/-- Reading an instruction passes its binary form, or one byte of the family of stops. The two
directions are soundness and completeness of what is read behind the opcode. -/
theorem read_eq_ok_iff :
    read s = .ok instruction t ↔
      (instruction.CapturesFit ∧ Passes instruction.encode s t) ∨
        (instruction = .stop ∧ ∃ b : UInt8, b / 16 = 15 ∧ Passes [b] s t) := by
  simp only [read, bind_eq_ok_iff, byte_eq_ok_iff]
  constructor
  · rintro ⟨_, _, ⟨⟩, opcode, u, first, behind⟩
    obtain ⟨rfl | ⟨rfl, family⟩, fits, passes⟩ := readOperands_sound behind
    · exact .inl ⟨fits, passes_append.mpr ⟨u, first, passes⟩⟩
    · obtain rfl := passes_nil.mp passes
      exact .inr ⟨rfl, opcode, family, first⟩
  · rintro (⟨fits, passes⟩ | ⟨rfl, b, family, passes⟩)
    · obtain ⟨u, first, passes⟩ := @passes_append _ _ [_] _ |>.mp passes
      exact ⟨s, s, rfl, instruction.opcode, u, first, readOperands_complete fits passes⟩
    · exact ⟨s, s, rfl, b, t, passes, readOperands_stop family⟩

end Instruction

end BytecodeMachine
