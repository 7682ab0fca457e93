import BytecodeMachine.Text.Decimal
/-!
# Instructions

The instruction set of the stack machine. Operands are kept as they stand in the
code, as signed 32-bit numbers: a negative count or an address outside the code
is still an instruction, which fails when it is executed.

Encoding and decoding are in `BytecodeMachine.Instruction.Encode` and
`BytecodeMachine.Instruction.Decode`.
-/
namespace BytecodeMachine

/-- The binary operators, in the order of their codes. -/
inductive Operator
  | add | sub | mul | div | mod
  | lt | le | gt | ge | eq | ne
  | and | or
deriving DecidableEq, Repr

namespace Operator

def code : Operator → UInt8
  | .add => 1 | .sub => 2 | .mul => 3 | .div => 4 | .mod => 5
  | .lt => 6 | .le => 7 | .gt => 8 | .ge => 9 | .eq => 10 | .ne => 11
  | .and => 12 | .or => 13

def ofCode? : UInt8 → Option Operator
  | 1 => some .add | 2 => some .sub | 3 => some .mul | 4 => some .div | 5 => some .mod
  | 6 => some .lt | 7 => some .le | 8 => some .gt | 9 => some .ge | 10 => some .eq | 11 => some .ne
  | 12 => some .and | 13 => some .or
  | _ => none

/-- The sign of an operator. Disjunction is written with exclamation marks. -/
def symbol : Operator → String
  | .add => "+" | .sub => "-" | .mul => "*" | .div => "/" | .mod => "%"
  | .lt => "<" | .le => "<=" | .gt => ">" | .ge => ">=" | .eq => "==" | .ne => "!="
  | .and => "&&" | .or => "!!"

/-- The codes tell the operators apart. -/
theorem ofCode?_code (operator : Operator) : ofCode? operator.code = some operator := by
  cases operator <;> rfl

end Operator

/-- The storage a variable belongs to. -/
inductive Storage
  | globals
  | locals
  | arguments
  /-- What the closure that runs in the current frame has captured. -/
  | captures
deriving DecidableEq, Repr

namespace Storage

def code : Storage → UInt8
  | .globals => 0 | .locals => 1 | .arguments => 2 | .captures => 3

def ofCode? : UInt8 → Option Storage
  | 0 => some .globals | 1 => some .locals | 2 => some .arguments | 3 => some .captures
  | _ => none

def letter : Storage → String
  | .globals => "G" | .locals => "L" | .arguments => "A" | .captures => "C"

/-- The codes tell the storages apart. -/
theorem ofCode?_code (storage : Storage) : ofCode? storage.code = some storage := by
  cases storage <;> rfl

end Storage

/-- A variable operand: a storage and a position in it. -/
structure Variable where
  storage : Storage
  index : Int32
deriving DecidableEq, Repr

/-- A variable is shown by its storage's letter and its index, as `L(3)`. -/
def Variable.text (name : Variable) : String :=
  name.storage.letter ++ "(" ++ Decimal.text name.index.toInt ++ ")"

/-- The tests of the pattern family. All but `sameString` look at one word. -/
inductive Pattern
  | sameString
  | string
  | array
  | aggregate
  | reference
  | number
  | closure
deriving DecidableEq, Repr

namespace Pattern

def code : Pattern → UInt8
  | .sameString => 0 | .string => 1 | .array => 2 | .aggregate => 3
  | .reference => 4 | .number => 5 | .closure => 6

def ofCode? : UInt8 → Option Pattern
  | 0 => some .sameString | 1 => some .string | 2 => some .array | 3 => some .aggregate
  | 4 => some .reference | 5 => some .number | 6 => some .closure
  | _ => none

def mnemonic : Pattern → String
  | .sameString => "=str" | .string => "#string" | .array => "#array" | .aggregate => "#sexp"
  | .reference => "#ref" | .number => "#val" | .closure => "#fun"

/-- The codes tell the patterns apart. -/
theorem ofCode?_code (pattern : Pattern) : ofCode? pattern.code = some pattern := by
  cases pattern <;> rfl

end Pattern

/-- One instruction with its operands. -/
inductive Instruction
  | binary (operator : Operator)
  | constant (number : Int32)
  /-- Pushes a fresh string, given by its offset in the string table. -/
  | string (offset : Int32)
  /-- Makes an aggregate of the top words. Its constructor's name is in the string table. -/
  | aggregate (name arity : Int32)
  /-- Stores the top word through the place below it. -/
  | storeThrough
  /-- Stores the top word into an element, or through a place. -/
  | storeElement
  | jump (target : Int32)
  /-- Leaves the running function. -/
  | leave
  /-- Has an opcode, and no machine executes it. -/
  | ret
  | drop
  | duplicate
  | swap
  | element
  | load (source : Variable)
  | loadPlace (source : Variable)
  | store (target : Variable)
  | jumpIfZero (target : Int32)
  | jumpUnlessZero (target : Int32)
  /-- Opens the frame of a function. -/
  | enter (arguments locals : Int32)
  /-- Opens the frame of a closure's function. -/
  | enterClosure (arguments locals : Int32)
  | closure (target : Int32) (captured : List Variable)
  | callClosure (arguments : Int32)
  | call (target arguments : Int32)
  | matchAggregate (name arity : Int32)
  | matchArray (length : Int32)
  | failure (line column : Int32)
  | line (number : Int32)
  | test (pattern : Pattern)
  | readNumber
  | writeNumber
  | length
  | print
  | array (length : Int32)
  | stop
deriving DecidableEq, Repr

end BytecodeMachine
