import BytecodeMachine.Instruction
import BytecodeMachine.Text.Escaped
import BytecodeMachine.Text.Utf8
import BytecodeMachine.Value
/-!
# Faults

Whatever goes wrong is a `Fault`: a cause, wrapped in the contexts in which it
arose, outermost first. Causes are grouped by what reports them. The wording is in
this module alone; the rest of the library decides on causes.

The shown form of a fault is its contexts and its cause, joined by colons.
-/
namespace BytecodeMachine

/-- Requests that the operand stack refuses. Sizes and positions are those at the request. -/
inductive StackFault
  | pushOnFull
  | popOnEmpty
  | peekBeyond (depth size : Nat)
  | dropBeyond (count size : Nat)
  | reserveBeyond (count : Nat)
  | reverseBeyond (count size : Nat)
  | windowBeyond (count size : Nat)
  | topOutside (requested top bottom : Nat)
  | readOutside (index top bottom : Nat)
  | writeOutside (index top bottom : Nat)
deriving DecidableEq, Repr

def StackFault.message : StackFault → String
  | .pushOnFull => "STACK: push - not enough empty space"
  | .popOnEmpty => "STACK: pop - stack is empty"
  | .peekBeyond depth size => s!"STACK: peek - index {depth} is too large for {size} live words"
  | .dropBeyond count size => s!"STACK: drop - cannot drop {count} of {size} live words"
  | .reserveBeyond count => s!"STACK: reserve - not enough empty space for {count} words"
  | .reverseBeyond count size => s!"STACK: reverse - cannot reverse {count} of {size} live words"
  | .windowBeyond count size => s!"STACK: window - cannot view {count} of {size} live words"
  | .topOutside requested top bottom =>
    s!"STACK: set_top - {requested} is outside the live range {top}..{bottom}"
  | .readOutside index top bottom =>
    s!"STACK: read of {index} outside the live range {top}..{bottom}"
  | .writeOutside index top bottom =>
    s!"STACK: write of {index} outside the live range {top}..{bottom}"

/-- Code that is no instruction, and addresses that cannot be patched. -/
inductive CodeFault
  | byteMissing (offset : Nat)
  | numberMissing (offset : Nat)
  | invalidOpcode (opcode : UInt8) (offset : Nat)
  | invalidStorage (code : UInt8)
  | negativeCaptures (count : Int32) (offset : Nat)
  | capturesOverrun (count : Int32) (offset : Nat)
  | noInstruction (offset : Nat)
  | noTarget (opcode : UInt8) (offset : Nat)
  | targetCutOff (offset : Nat)
deriving DecidableEq, Repr

def CodeFault.message : CodeFault → String
  | .byteMissing offset =>
    s!"unexpected end of code while reading a byte at {Hexadecimal.offset offset}"
  | .numberMissing offset =>
    s!"unexpected end of code while reading an int at {Hexadecimal.offset offset}"
  | .invalidOpcode opcode offset =>
    s!"invalid opcode {opcode / 16}-{opcode % 16} at {Hexadecimal.offset offset}"
  | .invalidStorage code => s!"invalid location class {code}"
  | .negativeCaptures count offset =>
    s!"negative capture count {count} at {Hexadecimal.offset offset}"
  | .capturesOverrun count offset =>
    s!"capture count {count} overruns the code at {Hexadecimal.offset offset}"
  | .noInstruction offset => s!"no instruction at {Hexadecimal.offset offset}"
  | .noTarget opcode offset =>
    s!"instruction {Hexadecimal.byte opcode} at {Hexadecimal.offset offset} has no address operand"
  | .targetCutOff offset =>
    s!"the address operand at {Hexadecimal.offset offset} is cut off by the end of the code"

/-- The numbers in the header of a bytecode file. -/
inductive HeaderField
  | strings
  | globals
  | code
  | publics
deriving DecidableEq, Repr

def HeaderField.name : HeaderField → String
  | .strings => "string table size"
  | .globals => "global area size"
  | .code => "bytecode size"
  | .publics => "public symbol count"

/-- Files that are no image, and string offsets that an image does not have. -/
inductive ImageFault
  | headerMissing (size : Nat)
  | negativeField (field : HeaderField) (value : Int32)
  | publicsOverrun (count : Nat)
  | stringsOverrun (size : Nat)
  | malformedPublic (name offset : Int32)
  | codeTruncated (announced held : Nat)
  | stringOutside (offset : Int32) (size : Nat)
  | stringUnterminated (offset : Int32)
deriving DecidableEq, Repr

def ImageFault.message : ImageFault → String
  | .headerMissing size => s!"file too small for its header ({size} bytes)"
  | .negativeField field value => s!"negative {field.name} {value}"
  | .publicsOverrun count => s!"public symbol table ({count} entries) overruns the file"
  | .stringsOverrun size => s!"string table ({size} bytes) overruns the file"
  | .malformedPublic name offset => s!"malformed public symbol ({name}, {offset})"
  | .codeTruncated announced held =>
    s!"code section truncated: header announces {announced} bytes, file holds {held}"
  | .stringOutside offset size => s!"string offset {offset} outside the string table ({size} bytes)"
  | .stringUnterminated offset => s!"string at offset {offset} is not NUL-terminated"

/-- What sort of object a reference leads to. -/
inductive ObjectKind
  | string
  | array
  | aggregate
  | closure
deriving DecidableEq, Repr

def ObjectKind.name : ObjectKind → String
  | .string => "string"
  | .array => "array"
  | .aggregate => "sexp"
  | .closure => "closure"

/-- Requests that the heap refuses. -/
inductive HeapFault
  | dangling (object : Ref)
  | exhausted (count : Nat)
  | indexOutside (index : Int32) (kind : ObjectKind) (length : Nat)
  | elementOfClosure
  | noField (index : Nat) (object : Ref)
  | entryOverwritten
  | expectedClosure (found : ObjectKind)
  | negativeEntry (entry : Int32)
deriving DecidableEq, Repr

def HeapFault.message : HeapFault → String
  | .dangling object => s!"dangling reference @{object.index}"
  | .exhausted count => s!"heap exhausted after {count} objects"
  | .indexOutside index kind length =>
    s!"index {index} out of bounds for {kind.name} of length {length}"
  | .elementOfClosure => "cannot index a closure"
  | .noField index object => s!"no field {index} in object @{object.index}"
  | .entryOverwritten => "the entry of a closure cannot be overwritten"
  | .expectedClosure found => s!"expected a closure, found {found.name}"
  | .negativeEntry entry => s!"closure entry {entry} is negative"

/-- Names that have no tag. -/
inductive TagFault
  | unknownCharacter (byte : UInt8)
  /-- The name does not survive: its tag is spelled otherwise. -/
  | spelledOtherwise (name : List UInt8) (spelling : String)
deriving DecidableEq, Repr

def TagFault.message : TagFault → String
  | .unknownCharacter byte =>
    s!"tagHash: character not found: {String.ofList (Text.escapedByte byte)}"
  | .spelledOtherwise name spelling => s!"tagHash: {Utf8.text name} <-> {spelling}"

/-- Frames that do not hold what a frame holds. -/
inductive FrameFault
  | negativeIndex (storage : Storage) (index : Int32)
  | globalUndeclared (index size : Nat)
  | globalMissing (index : Nat)
  | localBelowStack (index : Nat)
  | noClosure
  | negativeArguments (count : Int32)
  | linkOutside (pointer : Int32)
deriving DecidableEq, Repr

def FrameFault.message : FrameFault → String
  | .negativeIndex storage index => s!"negative {storage.letter} index {index}"
  | .globalUndeclared index size => s!"global {index} outside the globals area ({size} words)"
  | .globalMissing index => s!"global {index} outside the globals area"
  | .localBelowStack index => s!"local {index} is below the stack"
  | .noClosure => "bound variable used in a frame without a closure"
  | .negativeArguments count => s!"negative argument count {count}"
  | .linkOutside pointer => s!"saved frame pointer {pointer} is outside the stack"

/-- What stops a machine besides. -/
inductive MachineFault
  | negativeCount (count : Int32)
  | targetOutside (address : Int32) (size : Nat)
  | divisionByZero
  | unsupportedReturn
  | noMatch (line column : Int32)
  | ranPastEnd (offset : Nat)
  | capacityTooLarge (capacity : Nat)
  /-- More words are asked for than memory can be addressed. -/
  | unaddressable
  /-- The allocator has refused words that could be addressed. -/
  | outOfMemory
deriving DecidableEq, Repr

def MachineFault.message : MachineFault → String
  | .negativeCount count => s!"negative count {count}"
  | .targetOutside address size =>
    s!"address {Hexadecimal.address address} is outside the code ({size} bytes)"
  | .divisionByZero => "division by zero"
  | .unsupportedReturn => "unsupported instruction RET"
  | .noMatch line column => s!"matching value failure at {line}:{column}"
  | .ranPastEnd offset => s!"ran past the end of the code at {Hexadecimal.offset offset}"
  | .capacityTooLarge capacity => s!"stack capacity {capacity} does not fit a frame pointer"
  | .unaddressable =>
    "memory allocation failed because the computed capacity exceeded the collection's maximum"
  | .outOfMemory => "memory allocation failed because the memory allocator returned an error"

/-- What the outside world refuses. -/
inductive WorldFault
  | outputFull
  | flushRefused
  | endOfInput
  | illFormedInput
  | noSuchFile
  /-- Any other failure to read a file, in the system's words. -/
  | unreadable (reason : String)
  | emptyStack
deriving DecidableEq, Repr

def WorldFault.message : WorldFault → String
  | .outputFull => "output full"
  | .flushRefused => "flush refused"
  | .endOfInput => "Lread: unexpected end of input"
  | .illFormedInput => "stream did not contain valid UTF-8"
  | .noSuchFile => "No such file or directory (os error 2)"
  | .unreadable reason => reason
  | .emptyStack => "BYTERUN_STACK_SIZE must be positive"

def Decimal.Failure.message : Decimal.Failure → String
  | .empty => "cannot parse integer from empty string"
  | .invalidDigit => "invalid digit found in string"
  | .tooLarge => "number too large to fit in target type"
  | .tooSmall => "number too small to fit in target type"

/-- An area of words that a machine allocates when it is made. -/
inductive Area
  | stack
  | globals
deriving DecidableEq, Repr

def Area.name : Area → String
  | .stack => "stack words"
  | .globals => "globals"

/-- What was being done when a fault arose. -/
inductive Context
  /-- Executing the instruction at an offset, on a source line if one is known. -/
  | instruction (offset : Nat) (line : Option Int32)
  | loading (source : Variable)
  | storing (target : Variable)
  | leftOperand (operator : Operator)
  | rightOperand (operator : Operator)
  | elementIndex
  | condition
  | writtenWord
  | calledWord
  | lastArgument
  | frameLink
  | argumentCount
  | returnAddress
  | writingPrompt
  | flushingPrompt
  | readingInput
  | readingToken (token : String)
  | writingNumber
  | flushingNumber
  | allocating (count : Nat) (area : Area)
  | readingFile (path : String)
  | loadingFile (path : String)
  | stackSize (setting : String)
deriving DecidableEq, Repr

def Context.message : Context → String
  | .instruction offset none => s!"at offset {Hexadecimal.offset offset}"
  | .instruction offset (some line) => s!"at offset {Hexadecimal.offset offset} (line {line})"
  | .loading source => s!"cannot load {source.text}"
  | .storing target => s!"cannot store {target.text}"
  | .leftOperand operator => s!"left operand of {operator.symbol}"
  | .rightOperand operator => s!"right operand of {operator.symbol}"
  | .elementIndex => "element index"
  | .condition => "branch condition"
  | .writtenWord => "Lwrite argument"
  | .calledWord => "CALLC target is not a closure"
  | .lastArgument => "bound variable used in a frame without a closure"
  | .frameLink => "corrupted frame link"
  | .argumentCount => "corrupted argument count"
  | .returnAddress => "corrupted return address"
  | .writingPrompt => "Lread: cannot write prompt"
  | .flushingPrompt => "Lread: cannot flush output"
  | .readingInput => "Lread: cannot read input"
  | .readingToken token => s!"Lread: expected an integer, found '{token}'"
  | .writingNumber => "Lwrite: cannot write output"
  | .flushingNumber => "Lwrite: cannot flush output"
  | .allocating count area => s!"cannot allocate {count} {area.name}"
  | .readingFile path => s!"failed to read '{path}'"
  | .loadingFile path => s!"failed to load bytecode from '{path}'"
  | .stackSize setting => s!"invalid BYTERUN_STACK_SIZE '{setting}'"

/-- Everything that can go wrong. -/
inductive Fault
  | expectedScalar (found : Value.Kind)
  | expectedReference (found : Value.Kind)
  | expectedPlace (found : Value.Kind)
  | number (cause : Decimal.Failure)
  | stack (cause : StackFault)
  | code (cause : CodeFault)
  | image (cause : ImageFault)
  | heap (cause : HeapFault)
  | tag (cause : TagFault)
  | frame (cause : FrameFault)
  | machine (cause : MachineFault)
  | world (cause : WorldFault)
  /-- A fault that arose while something was being done. -/
  | during (context : Context) (cause : Fault)
deriving DecidableEq, Repr

/-- The contexts, outermost first, and the cause, joined by colons. -/
def Fault.message : Fault → String
  | .expectedScalar found => s!"expected a scalar, found {found.name}"
  | .expectedReference found => s!"expected a heap reference, found {found.name}"
  | .expectedPlace found => s!"cannot store through a {found.name}"
  | .number cause => cause.message
  | .stack cause => cause.message
  | .code cause => cause.message
  | .image cause => cause.message
  | .heap cause => cause.message
  | .tag cause => cause.message
  | .frame cause => cause.message
  | .machine cause => cause.message
  | .world cause => cause.message
  | .during context cause => context.message ++ ": " ++ cause.message

end BytecodeMachine
