import BytecodeMachine.Action
/-!
# Tags of constructors

The constructor of an aggregate is kept as a number, its tag: the first five
characters of its name, six bits each, the first one highest. A character's code is
its position in an alphabet of 64; the code of the underscore is zero. A name has a
tag only if the tag spells its first five characters, which fails for a name that
starts with an underscore.
-/
namespace BytecodeMachine.Tag

/-- How many characters count. -/
def length : Nat := 5

/-- The code of a character: its position in the alphabet. -/
def code? (b : UInt8) : Option Nat :=
  if b = 0x5F then some 0
  else if 0x61 ≤ b ∧ b ≤ 0x7A then some (b.toNat - 0x61 + 1)
  else if 0x41 ≤ b ∧ b ≤ 0x5A then some (b.toNat - 0x41 + 27)
  else if 0x30 ≤ b ∧ b ≤ 0x39 then some (b.toNat - 0x30 + 53)
  else if b = 0x27 then some 63
  else none

/-- The character of a code below 64. -/
def character (code : Nat) : UInt8 :=
  if code = 0 then 0x5F
  else if code < 27 then UInt8.ofNat (0x61 + (code - 1))
  else if code < 53 then UInt8.ofNat (0x41 + (code - 27))
  else if code < 63 then UInt8.ofNat (0x30 + (code - 53))
  else 0x27

/-- Adds the codes of characters behind those of `packed`. -/
def pack (packed : Nat) : List UInt8 → Answer Nat
  | [] => .ok packed
  | b :: rest =>
    match code? b with
    | none => .error (.tag (.unknownCharacter b))
    | some code => pack (packed * 64 + code) rest

/-- At most `count` characters that a number spells: its lowest six bits are the last
one, and there are no more once the rest is zero. -/
def unpack : Nat → Int → List UInt8
  | 0, _ => []
  | count + 1, packed =>
    if packed = 0 then []
    else unpack count (packed / 64) ++ [character (packed % 64).toNat]

/-- The characters that a tag spells. -/
def spelling (tag : Int32) : List UInt8 := unpack length tag.toInt

/-- The name that a tag spells. -/
def name (tag : Int32) : String := String.ofList ((spelling tag).map fun b => Char.ofNat b.toNat)

/-- The tag of a name. -/
def ofName (name : List UInt8) : Answer Int32 :=
  match pack 0 (name.take length) with
  | .error cause => .error cause
  | .ok packed =>
    let tag := Int32.ofNat packed
    if spelling tag = name.take length then .ok tag
    else .error (.tag (.spelledOtherwise (name.take length) (Tag.name tag)))

end BytecodeMachine.Tag
