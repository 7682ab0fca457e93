import BytecodeMachine.Text.Decimal
import BytecodeMachine.Text.Hexadecimal
/-!
# JSON reports

A report is an array of flat objects, one member a line and two blanks a level.
Texts are quoted: a quote, a backslash and the control characters below U+0020
are escaped, the five that have short escapes by those, and everything else
stands for itself.
-/
namespace BytecodeMachine.Json

/-- A member's value in a flat object. -/
inductive Scalar
  | number (value : Nat)
  | text (value : String)
deriving DecidableEq, Repr

def escape (c : Char) : List Char :=
  match c with
  | '"' => ['\\', '"']
  | '\\' => ['\\', '\\']
  | '\x08' => ['\\', 'b']
  | '\x0c' => ['\\', 'f']
  | '\n' => ['\\', 'n']
  | '\r' => ['\\', 'r']
  | '\t' => ['\\', 't']
  | c => if c.toNat < 0x20 then '\\' :: 'u' :: Hexadecimal.padded 4 c.toNat else [c]

def quoted (value : String) : String :=
  String.ofList ('"' :: value.toList.flatMap escape ++ ['"'])

def Scalar.render : Scalar → String
  | .number value => Decimal.text value
  | .text value => quoted value

/-- One object of the array, indented by a level. -/
def renderObject (members : List (String × Scalar)) : String :=
  let lines := members.map fun (name, value) => "    " ++ quoted name ++ ": " ++ value.render
  "  \x7b\n" ++ String.intercalate ",\n" lines ++ "\n  \x7d"

/-- The whole array. An empty array stays on one line. -/
def renderArray : List (List (String × Scalar)) → String
  | [] => "[]"
  | objects => "[\n" ++ String.intercalate ",\n" (objects.map renderObject) ++ "\n]"

end BytecodeMachine.Json
