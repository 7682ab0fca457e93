/-!
# Hexadecimal numerals

Offsets, addresses and opcodes are shown in lower-case hexadecimal digits, filled
with zeros on the left up to a width. A number that needs more digits keeps them.
-/
namespace BytecodeMachine.Hexadecimal

def digit (value : Nat) : Char :=
  if value < 10 then Char.ofNat (48 + value) else Char.ofNat (87 + value)

/-- The digits of a number, most significant first. Zero has one digit. -/
def digits (number : Nat) : List Char :=
  if number < 16 then [digit number] else digits (number / 16) ++ [digit (number % 16)]

/-- The digits of a number, filled with zeros up to a width. -/
def padded (width number : Nat) : List Char :=
  List.replicate (width - (digits number).length) '0' ++ digits number

/-- A number without leading zeros, as `0x2a`. -/
def short (number : Nat) : String := String.ofList ('0' :: 'x' :: digits number)

/-- A byte, as `0x0f`. -/
def byte (value : UInt8) : String := String.ofList ('0' :: 'x' :: padded 2 value.toNat)

/-- An offset in the code, as `0x0000002a`. -/
def offset (number : Nat) : String := String.ofList ('0' :: 'x' :: padded 8 number)

/-- A signed operand shown as an address: its two's complement. -/
def address (number : Int32) : String := offset number.toUInt32.toNat

end BytecodeMachine.Hexadecimal
