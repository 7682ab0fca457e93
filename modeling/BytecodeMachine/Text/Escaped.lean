import BytecodeMachine.Text.Hexadecimal
/-!
# A byte in visible ASCII

Error messages name a single byte: tab, line feed, carriage return, quotes and the
backslash are escaped by a backslash, other visible ASCII stands for itself, and
any other byte is shown by two hexadecimal digits.
-/
namespace BytecodeMachine.Text

def escapedByte (b : UInt8) : List Char :=
  match b with
  | 0x09 => ['\\', 't']
  | 0x0A => ['\\', 'n']
  | 0x0D => ['\\', 'r']
  | 0x22 => ['\\', '"']
  | 0x27 => ['\\', Char.ofNat 0x27]
  | 0x5C => ['\\', '\\']
  | b =>
    if 0x20 ≤ b ∧ b < 0x7F then [Char.ofNat b.toNat]
    else '\\' :: 'x' :: Hexadecimal.padded 2 b.toNat

end BytecodeMachine.Text
