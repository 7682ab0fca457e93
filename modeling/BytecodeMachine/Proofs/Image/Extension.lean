import BytecodeMachine.Machine.Step
import BytecodeMachine.Proofs.Instruction.Decode
import BytecodeMachine.Proofs.Machine.Linkage
/-!
# Longer images

An image extends another if its code and its string table go on where those of the other end.
What is found in the shorter image is found in the longer one at the same place: an instruction
and the offset behind it, an address, a string. What is not found in the shorter one may be
found in the longer one, so nothing is said about that.
-/
namespace BytecodeMachine

namespace Image

/-- The code and the string table of the one image go on those of the other. The globals and the
public symbols take no part in this. -/
structure Extends (longer image : Image) : Prop where
  code : ∃ more, longer.code = image.code ++ more
  strings : ∃ more, longer.strings = image.strings ++ more

/-- An image extends itself by nothing. -/
theorem extends_refl (image : Image) : Extends image image :=
  ⟨⟨#[], Array.append_empty.symm⟩, ⟨#[], Array.append_empty.symm⟩⟩

/-- The first zero byte is found before the bytes that are appended. Proof: induction along the
search. Each byte looked at is one of the shorter table, and the longer one has it at the same
index. -/
theorem terminator?_append {strings : Array UInt8} (more : Array UInt8) {start stop : Nat}
    (found : terminator? strings start = some stop) :
    stop < strings.size ∧ terminator? (strings ++ more) start = some stop := by
  induction start using terminator?.induct strings with
  | case1 start inside zero =>
    rw [terminator?, dif_pos inside, if_pos zero] at found
    cases found
    have within : stop < (strings ++ more).size := by
      rw [Array.size_append]
      omega
    refine ⟨inside, ?_⟩
    rw [terminator?, dif_pos within, Array.getElem_append_left inside, if_pos zero]
  | case2 start inside other later =>
    rw [terminator?, dif_pos inside, if_neg other] at found
    have within : start < (strings ++ more).size := by
      rw [Array.size_append]
      omega
    obtain ⟨bound, same⟩ := later found
    refine ⟨bound, ?_⟩
    rw [terminator?, dif_pos within, Array.getElem_append_left inside, if_neg other, same]
  | case3 start outside =>
    rw [terminator?, dif_neg outside] at found
    cases found

namespace Extends

variable {longer image : Image} (extends_ : longer.Extends image)
include extends_

/-- A string that is found lies within the table up to its zero byte, and a longer table begins
with the same bytes. -/
theorem stringAt {offset : Int32} {bytes : Array UInt8}
    (found : image.stringAt offset = .ok bytes) :
    longer.stringAt offset = .ok bytes := by
  obtain ⟨more, strings⟩ := extends_.strings
  unfold Image.stringAt at found ⊢
  split at found
  · next inside =>
    have within : 0 ≤ offset ∧ offset.toInt.toNat < longer.strings.size := by
      rw [strings, Array.size_append]
      exact ⟨inside.1, by omega⟩
    rw [if_pos within]
    split at found
    · next stop terminated =>
      cases found
      obtain ⟨bound, same⟩ := terminator?_append more terminated
      rw [strings, same]
      dsimp only
      rw [Array.extract_append, Nat.sub_eq_zero_of_le (Nat.le_of_lt bound), Array.extract_zero,
        Array.append_empty]
    · cases found
  · cases found

/-- An address of the shorter code is one of the longer code. -/
theorem target {address : Int32} {offset : Nat}
    (found : Machine.target image address = .ok offset) :
    Machine.target longer address = .ok offset := by
  obtain ⟨more, code⟩ := extends_.code
  obtain ⟨⟨positive, inside⟩, rfl⟩ := Machine.target_eq_ok_iff.mp found
  refine Machine.target_eq_ok_iff.mpr ⟨⟨positive, ?_⟩, rfl⟩
  rw [code, Array.size_append]
  omega

/-- Bytes that stand in the code stand in the longer code. -/
theorem passes {bytes : List UInt8} {pos : Nat} {cursor : Cursor}
    (passes : Cursor.Passes bytes ⟨image.code, pos⟩ cursor) :
    Cursor.Passes bytes ⟨longer.code, pos⟩ ⟨longer.code, cursor.pos⟩ := by
  obtain ⟨more, code⟩ := extends_.code
  obtain ⟨stands, rfl⟩ := passes
  refine ⟨?_, rfl⟩
  rw [Cursor.rest, code, Array.toList_append, List.drop_append]
  exact stands.trans (List.prefix_append _ _)

/-- An instruction that is decoded from the shorter code is the same one in the longer code: all
its bytes are there already. -/
theorem fetch {offset behind : Nat} {instruction : Instruction}
    (found : Machine.fetch image offset = .ok (instruction, behind)) :
    Machine.fetch longer offset = .ok (instruction, behind) := by
  unfold Machine.fetch at found ⊢
  split at found
  · next cursor read =>
    cases found
    have there : Instruction.read ⟨longer.code, offset⟩ =
        .ok instruction ⟨longer.code, cursor.pos⟩ := by
      rw [Instruction.read_eq_ok_iff] at read ⊢
      refine read.imp ?_ ?_
      · rintro ⟨fits, stands⟩
        exact ⟨fits, extends_.passes stands⟩
      · rintro ⟨stops, b, family, stands⟩
        exact ⟨stops, b, family, extends_.passes stands⟩
    rw [there]
  · cases found

end Extends

end Image

end BytecodeMachine
