import BytecodeMachine.Image
import BytecodeMachine.Instruction.Draft
/-!
# Writing images

While an image is drafted, a string is put into the table once: a second use of it
has the offset of the first.
-/
namespace BytecodeMachine

/-- An image that is being written, without its code. -/
structure ImageDraft where
  strings : Array UInt8 := #[]
  /-- The strings in the table with their offsets, last one first. -/
  interned : List (String × Int32) := []
  publics : List PublicSymbol := []
  globals : Nat := 0

namespace ImageDraft

/-- Puts a string into the table, unless it is there, and gives its offset. -/
def intern (draft : ImageDraft) (text : String) : Int32 × ImageDraft :=
  match draft.interned.lookup text with
  | some offset => (offset, draft)
  | none =>
    let offset := Int32.ofNat draft.strings.size
    (offset,
      { draft with
        strings := (draft.strings ++ text.toUTF8.data).push 0
        interned := (text, offset) :: draft.interned })

/-- Names an offset in the code, of which the low 32 bits are kept. -/
def declare (draft : ImageDraft) (name : String) (offset : Nat) : ImageDraft :=
  let (position, draft) := draft.intern name
  { draft with publics := draft.publics ++ [⟨position.toUInt32, UInt32.ofNat offset⟩] }

def withGlobals (draft : ImageDraft) (count : Nat) : ImageDraft := { draft with globals := count }

/-- The image with this code. -/
def finish (draft : ImageDraft) (code : CodeDraft) : Image :=
  ⟨draft.strings, draft.publics, code.code, draft.globals⟩

end ImageDraft

end BytecodeMachine
