import BytecodeMachine.Image
import BytecodeMachine.LittleEndian
/-!
# Bytecode files

A file is a header of little-endian numbers, then the public symbols, the string
table and the code. There are two headers: the classic one has the sizes of the
string table and of the globals area and the number of public symbols, and its code
runs to the end of the file; the sized one has the size of the code before the
number of public symbols.

Which of the two a file has is decided by its size: it is sized when the sizes of a
sized header account for the whole file, and classic otherwise.
-/
namespace BytecodeMachine

/-- Which header a file has. -/
inductive Layout
  | classic
  | sized
  /-- Decided by the size of the file. Written files are sized. -/
  | detected
deriving DecidableEq, Repr

/-- A size as the low 32 bits of it. -/
def encodeSize (size : Nat) : List UInt8 := LittleEndian.encode (Int32.ofNat size)

def PublicSymbol.encode (symbol : PublicSymbol) : List UInt8 :=
  LittleEndian.encode symbol.name.toInt32 ++ LittleEndian.encode symbol.offset.toInt32

namespace Image

def encodeHeader (image : Image) : Layout → List UInt8
  | .classic =>
    encodeSize image.strings.size ++ encodeSize image.globals ++ encodeSize image.publics.length
  | .sized | .detected =>
    encodeSize image.strings.size ++ encodeSize image.globals ++ encodeSize image.code.size ++
      encodeSize image.publics.length

/-- The file of an image. -/
def encode (image : Image) (layout : Layout) : List UInt8 :=
  image.encodeHeader layout ++ image.publics.flatMap PublicSymbol.encode ++
    image.strings.toList ++ image.code.toList

/-- The number at a position of the header, if the file has it. -/
def headerNumber? (file : List UInt8) (position : Nat) : Option Int32 :=
  match file.drop (4 * position) with
  | b₀ :: b₁ :: b₂ :: b₃ :: _ => some (LittleEndian.decode b₀ b₁ b₂ b₃)
  | _ => none

/-- A size in the header. -/
def headerSize (file : List UInt8) (position : Nat) (field : HeaderField) : Answer Nat :=
  match headerNumber? file position with
  | none => .error (.image (.headerMissing file.length))
  | some number =>
    if number < 0 then .error (.image (.negativeField field number)) else .ok number.toInt.toNat

/-- Whether the sizes of a sized header account for the whole file. -/
def isSized (file : List UInt8) : Bool :=
  match headerNumber? file 0, headerNumber? file 1, headerNumber? file 2, headerNumber? file 3 with
  | some strings, some globals, some code, some publics =>
    0 ≤ strings && 0 ≤ globals && 0 ≤ code && 0 ≤ publics &&
      16 + publics.toInt.toNat * 8 + strings.toInt.toNat + code.toInt.toNat == file.length
  | _, _, _, _ => false

/-- Reads public symbols from the front of the bytes. The first malformed one is reported. -/
def readPublics : Nat → List UInt8 → Answer (List PublicSymbol)
  | count + 1, a₀ :: a₁ :: a₂ :: a₃ :: b₀ :: b₁ :: b₂ :: b₃ :: rest =>
    let name := LittleEndian.decode a₀ a₁ a₂ a₃
    let offset := LittleEndian.decode b₀ b₁ b₂ b₃
    if name < 0 ∨ offset < 0 then .error (.image (.malformedPublic name offset))
    else
      match readPublics count rest with
      | .ok symbols => .ok (⟨name.toUInt32, offset.toUInt32⟩ :: symbols)
      | .error cause => .error cause
  | _, _ => .ok []

/-- The parts of a file behind its header. -/
structure Tables where
  publics : List PublicSymbol
  strings : List UInt8
  rest : List UInt8

/-- Splits a file behind a header of `header` bytes. Both tables have to end inside the
file before any symbol is looked at. -/
def splitTables (file : List UInt8) (header publics strings : Nat) : Answer Tables :=
  if file.length < header + publics * 8 then .error (.image (.publicsOverrun publics))
  else if file.length < header + publics * 8 + strings then
    .error (.image (.stringsOverrun strings))
  else
    match readPublics publics (file.drop header) with
    | .error cause => .error cause
    | .ok symbols =>
      let tail := file.drop (header + publics * 8)
      .ok ⟨symbols, tail.take strings, tail.drop strings⟩

def parseClassic (file : List UInt8) : Answer Image := do
  let strings ← headerSize file 0 .strings
  let globals ← headerSize file 1 .globals
  let publics ← headerSize file 2 .publics
  let tables ← splitTables file 12 publics strings
  return ⟨tables.strings.toArray, tables.publics, tables.rest.toArray, globals⟩

/-- Bytes behind the code of a sized file are ignored. -/
def parseSized (file : List UInt8) : Answer Image := do
  let strings ← headerSize file 0 .strings
  let globals ← headerSize file 1 .globals
  let code ← headerSize file 2 .code
  let publics ← headerSize file 3 .publics
  let tables ← splitTables file 16 publics strings
  if tables.rest.length < code then
    throw (.image (.codeTruncated code tables.rest.length))
  return ⟨tables.strings.toArray, tables.publics, (tables.rest.take code).toArray, globals⟩

/-- The image that a file holds. -/
def parse (layout : Layout) (file : List UInt8) : Answer Image :=
  match layout with
  | .classic => parseClassic file
  | .sized => parseSized file
  | .detected => if isSized file then parseSized file else parseClassic file

end Image

end BytecodeMachine
