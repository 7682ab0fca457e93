import BytecodeMachine.Action
/-!
# Images

An image is one compiled unit: a table of strings, each ended by a zero byte, a
list of public symbols, the code, and the size of the globals area, which a machine
allocates. Strings are addressed by their offset in the table; an offset may lie
inside a string, and then names its end.

The binary forms of images are in `BytecodeMachine.Image.Layout`.
-/
namespace BytecodeMachine

/-- A name, given by its offset in the string table, for an offset in the code. -/
structure PublicSymbol where
  name : UInt32
  offset : UInt32
deriving DecidableEq, Repr

structure Image where
  strings : Array UInt8
  publics : List PublicSymbol
  code : Array UInt8
  /-- The number of words in the globals area. -/
  globals : Nat
deriving DecidableEq, Repr

namespace Image

/-- The index of the first zero byte from `start` on. -/
def terminator? (strings : Array UInt8) (start : Nat) : Option Nat :=
  if inside : start < strings.size then
    if strings[start] = 0 then some start else terminator? strings (start + 1)
  else none
termination_by strings.size - start

/-- The string at an offset, without the zero byte that ends it. -/
def stringAt (image : Image) (offset : Int32) : Answer (Array UInt8) :=
  if 0 ≤ offset ∧ offset.toInt.toNat < image.strings.size then
    match terminator? image.strings offset.toInt.toNat with
    | some stop => .ok (image.strings.extract offset.toInt.toNat stop)
    | none => .error (.image (.stringUnterminated offset))
  else .error (.image (.stringOutside offset image.strings.size))

/-- The string at an offset as a text. -/
def textAt (image : Image) (offset : Int32) : Answer String := do
  return Utf8.text (← image.stringAt offset).toList

/-- The name of a public symbol. Its offset is read as a signed number. -/
def publicName (image : Image) (symbol : PublicSymbol) : Answer String :=
  image.textAt symbol.name.toInt32

/-- Whether a public symbol has a name with these bytes. -/
def hasName (image : Image) (name : Array UInt8) (symbol : PublicSymbol) : Bool :=
  match image.stringAt symbol.name.toInt32 with
  | .ok bytes => bytes == name
  | .error _ => false

/-- The offset of the first public symbol of this name. -/
def publicOffset? (image : Image) (name : String) : Option UInt32 :=
  (image.publics.find? (image.hasName name.toUTF8.data)).map (·.offset)

end Image

end BytecodeMachine
