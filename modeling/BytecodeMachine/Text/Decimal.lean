/-!
# Decimal numerals

Writing an integer takes a minus sign where it is needed and no leading zeros.
Reading admits an optional sign, then ASCII digits, any number of leading zeros
among them, and nothing else; the value has to lie in a given range. A range
without negative numbers admits no minus sign.

A numeral is read from left to right, so the first fault wins: a character that
is no digit after the value has left the range does not change what is reported.
-/
namespace BytecodeMachine.Decimal

def digit (value : Nat) : Char := Char.ofNat (48 + value)

/-- The digits of a natural number, most significant first. -/
def digits (number : Nat) : List Char :=
  if number < 10 then [digit number] else digits (number / 10) ++ [digit (number % 10)]

/-- The numeral of an integer. -/
def chars : Int → List Char
  | .ofNat number => digits number
  | .negSucc number => '-' :: digits (number + 1)

/-- The numeral of an integer, as a text. -/
def text (number : Int) : String := String.ofList (chars number)

/-- Why a text is not the numeral of a number in a range. -/
inductive Failure
  | empty
  | invalidDigit
  | tooLarge
  | tooSmall
deriving DecidableEq, Repr

/-- The value of an ASCII digit. -/
def digitValue? (c : Char) : Option Nat :=
  if '0' ≤ c ∧ c ≤ '9' then some (c.toNat - 48) else none

/-- Reads the digits after those of `value`, which is at most `greatest`. -/
def readMagnitude (greatest : Nat) (beyond : Failure) (value : Nat) : List Char → Except Failure Nat
  | [] => .ok value
  | c :: rest =>
    match digitValue? c with
    | none => .error .invalidDigit
    | some d =>
      if value * 10 + d ≤ greatest then readMagnitude greatest beyond (value * 10 + d) rest
      else .error beyond

/-- Reads digits of which there has to be one at least. -/
def readDigits (greatest : Nat) (beyond : Failure) (cs : List Char) : Except Failure Nat :=
  if cs.isEmpty then .error .invalidDigit else readMagnitude greatest beyond 0 cs

/-- Reads a natural number up to `greatest`, with an optional plus sign. -/
def readNat (greatest : Nat) : List Char → Except Failure Nat
  | [] => .error .empty
  | '+' :: rest => readDigits greatest .tooLarge rest
  | cs => readDigits greatest .tooLarge cs

/-- Reads a signed 32-bit number. The least one has a magnitude that no positive number has. -/
def readInt32 : List Char → Except Failure Int32
  | [] => .error .empty
  | '+' :: rest => (readDigits 2147483647 .tooLarge rest).map Int32.ofNat
  | '-' :: rest => (readDigits 2147483648 .tooSmall rest).map fun m => Int32.ofInt (-m)
  | cs => (readDigits 2147483647 .tooLarge cs).map Int32.ofNat

end BytecodeMachine.Decimal
