import BytecodeMachine.Heap
import BytecodeMachine.Tag
/-!
# Printed values

A word is printed with everything it leads to: numbers in decimal, places as they
are shown, strings in quotes, arrays in brackets, aggregates by their constructor
with the fields in parentheses, closures by their entry and captures. Aggregates
whose constructor is `cons` are list cells and print as chains in braces.

Data may be cyclic, so printing is bounded twice: objects that are nested too
deeply, and cells beyond the bound of a chain, are elided by three dots.
-/
namespace BytecodeMachine.Print

/-- How many objects may be nested, and how often a chain goes on to a next cell. -/
def limit : Nat := 256

/-- The constructor of list cells. -/
def cell : String := "cons"

/-- The heads of a chain, and its tail. Any aggregate in a tail counts as the next cell,
which ends the chain if it has fewer than two fields; any other object there is one
more item; what leads to no object is not printed. -/
def chain (heap : Heap) (item : Value → String) : Nat → Array Value → String
  | links, fields =>
    match fields[0]?, fields[1]? with
    | some head, some tail =>
      item head ++
        match heap.lookup? tail with
        | some (.aggregate _ next) =>
          ", " ++
            match links with
            | 0 => "..."
            | links + 1 => chain heap item links next
        | some _ => ", " ++ item tail
        | none => ""
    | _, _ => ""

/-- Items with commas between them. -/
def items (item : Value → String) (values : Array Value) : String :=
  String.intercalate ", " (values.toList.map item)

/-- An object, given how the words in it are printed. -/
def object (heap : Heap) (item : Value → String) : Object → String
  | .string bytes => "\"" ++ Utf8.text bytes.toList ++ "\""
  | .array elements => "[" ++ items item elements ++ "]"
  | .aggregate tag fields =>
    if Tag.name tag = cell then "\x7b" ++ chain heap item limit fields ++ "\x7d"
    else if fields.isEmpty then Tag.name tag
    else Tag.name tag ++ " (" ++ items item fields ++ ")"
  | .closure entry captured =>
    "<closure " ++ Hexadecimal.short entry ++
      String.join (captured.toList.map fun value => ", " ++ item value) ++ ">"

/-- A word, given how many objects may still be nested. -/
def value (heap : Heap) (depth : Nat) (word : Value) : String :=
  match word with
  | .ref reference =>
    match heap.objects[reference.index]? with
    | none => "<dangling @" ++ Decimal.text reference.index ++ ">"
    | some found =>
      match depth with
      | 0 => "..."
      | depth + 1 => object heap (value heap depth) found
  | word => word.text

end BytecodeMachine.Print

namespace BytecodeMachine

/-- The printed form of a word. -/
def Heap.print (heap : Heap) (value : Value) : String := Print.value heap Print.limit value

end BytecodeMachine
