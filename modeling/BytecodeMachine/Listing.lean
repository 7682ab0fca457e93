import BytecodeMachine.Image
import BytecodeMachine.Instruction.Decode
/-!
# Listings

The code of an image is decoded in order, up to and including the first `stop` or up
to its end, and shown one instruction a line, with its offset. String operands are
shown by their contents.
-/
namespace BytecodeMachine

/-- An instruction and where it stands. -/
structure Entry where
  offset : Nat
  length : Nat
  instruction : Instruction
deriving DecidableEq, Repr

/-- The bytes of an entry. -/
def Entry.bytes (image : Image) (entry : Entry) : Array UInt8 :=
  image.code.extract entry.offset (entry.offset + entry.length)

namespace Listing

/-- Decodes from an offset on. The fuel bounds the number of instructions; the size of the
code is enough, since each takes a byte at least. -/
def decodeFrom (code : Array UInt8) : Nat → Nat → Answer (List Entry)
  | 0, _ => .ok []
  | fuel + 1, offset =>
    if code.size ≤ offset then .ok []
    else
      match Instruction.read ⟨code, offset⟩ with
      | .error cause _ => .error (.during (.instruction offset none) cause)
      | .ok instruction cursor =>
        let entry : Entry := ⟨offset, cursor.pos - offset, instruction⟩
        if instruction = .stop then .ok [entry]
        else
          match decodeFrom code fuel cursor.pos with
          | .ok entries => .ok (entry :: entries)
          | .error cause => .error cause

/-- The instructions of an image, up to and including the first `stop`. -/
def entries (image : Image) : Answer (List Entry) :=
  decodeFrom image.code image.code.size 0

end Listing

/-- Two operands in decimal, with a blank between them. -/
def Instruction.decimalPair (first second : Int32) : String :=
  Decimal.text first.toInt ++ " " ++ Decimal.text second.toInt

/-- An instruction as it is shown. A string operand is looked up in the image. -/
def Instruction.mnemonic (image : Image) : Instruction → Answer String
  | .binary operator => return "BINOP\t" ++ operator.symbol
  | .constant number => return "CONST\t" ++ Decimal.text number.toInt
  | .string offset => return "STRING\t" ++ (← image.textAt offset)
  | .aggregate name arity =>
    return "SEXP\t" ++ (← image.textAt name) ++ " " ++ Decimal.text arity.toInt
  | .storeThrough => return "STI"
  | .storeElement => return "STA"
  | .jump target => return "JMP\t" ++ Hexadecimal.address target
  | .leave => return "END"
  | .ret => return "RET"
  | .drop => return "DROP"
  | .duplicate => return "DUP"
  | .swap => return "SWAP"
  | .element => return "ELEM"
  | .load source => return "LD\t" ++ source.text
  | .loadPlace source => return "LDA\t" ++ source.text
  | .store target => return "ST\t" ++ target.text
  | .jumpIfZero target => return "CJMPz\t" ++ Hexadecimal.address target
  | .jumpUnlessZero target => return "CJMPnz\t" ++ Hexadecimal.address target
  | .enter arguments locals => return "BEGIN\t" ++ decimalPair arguments locals
  | .enterClosure arguments locals => return "CBEGIN\t" ++ decimalPair arguments locals
  | .closure target captured =>
    return "CLOSURE\t" ++ Hexadecimal.address target ++
      String.join (captured.map fun name => " " ++ name.text)
  | .callClosure arguments => return "CALLC\t" ++ Decimal.text arguments.toInt
  | .call target arguments =>
    return "CALL\t" ++ Hexadecimal.address target ++ " " ++ Decimal.text arguments.toInt
  | .matchAggregate name arity =>
    return "TAG\t" ++ (← image.textAt name) ++ " " ++ Decimal.text arity.toInt
  | .matchArray count => return "ARRAY\t" ++ Decimal.text count.toInt
  | .failure row column => return "FAIL\t" ++ decimalPair row column
  | .line number => return "LINE\t" ++ Decimal.text number.toInt
  | .test pattern => return "PATT\t" ++ pattern.mnemonic
  | .readNumber => return "CALL\tLread"
  | .writeNumber => return "CALL\tLwrite"
  | .length => return "CALL\tLlength"
  | .print => return "CALL\tLstring"
  | .array count => return "CALL\tBarray\t" ++ Decimal.text count.toInt
  | .stop => return "<end>"

/-- An entry's line in the listing. -/
def Entry.line (image : Image) (entry : Entry) : Answer String := do
  return Hexadecimal.offset entry.offset ++ ":\t" ++ (← entry.instruction.mnemonic image)

/-- The listing of an image. -/
def Image.listing (image : Image) : Answer (List String) := do
  (← Listing.entries image).mapM (Entry.line image)

end BytecodeMachine
