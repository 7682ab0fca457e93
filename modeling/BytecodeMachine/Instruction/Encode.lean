import BytecodeMachine.Instruction
import BytecodeMachine.LittleEndian
/-!
# The binary form of instructions

An instruction is an opcode byte, whose high half is the family and whose low half
is the member, followed by its operands as little-endian numbers. A captured
variable is a byte for its storage and a number for its index.
-/
namespace BytecodeMachine

def Variable.encode (name : Variable) : List UInt8 :=
  name.storage.code :: LittleEndian.encode name.index

namespace Instruction

/-- The opcode byte. Variable instructions carry the storage in the low half. -/
def opcode : Instruction → UInt8
  | .binary operator => operator.code
  | .constant _ => 0x10
  | .string _ => 0x11
  | .aggregate _ _ => 0x12
  | .storeThrough => 0x13
  | .storeElement => 0x14
  | .jump _ => 0x15
  | .leave => 0x16
  | .ret => 0x17
  | .drop => 0x18
  | .duplicate => 0x19
  | .swap => 0x1A
  | .element => 0x1B
  | .load source => 0x20 + source.storage.code
  | .loadPlace source => 0x30 + source.storage.code
  | .store target => 0x40 + target.storage.code
  | .jumpIfZero _ => 0x50
  | .jumpUnlessZero _ => 0x51
  | .enter _ _ => 0x52
  | .enterClosure _ _ => 0x53
  | .closure _ _ => 0x54
  | .callClosure _ => 0x55
  | .call _ _ => 0x56
  | .matchAggregate _ _ => 0x57
  | .matchArray _ => 0x58
  | .failure _ _ => 0x59
  | .line _ => 0x5A
  | .test pattern => 0x60 + pattern.code
  | .readNumber => 0x70
  | .writeNumber => 0x71
  | .length => 0x72
  | .print => 0x73
  | .array _ => 0x74
  | .stop => 0xFF

/-- The bytes after the opcode. -/
def operands : Instruction → List UInt8
  | .constant a | .string a | .jump a | .jumpIfZero a | .jumpUnlessZero a | .callClosure a
  | .matchArray a | .line a | .array a => LittleEndian.encode a
  | .aggregate a b | .enter a b | .enterClosure a b | .call a b | .matchAggregate a b
  | .failure a b => LittleEndian.encode a ++ LittleEndian.encode b
  | .load name | .loadPlace name | .store name => LittleEndian.encode name.index
  | .closure target captured =>
    LittleEndian.encode target ++ LittleEndian.encode (Int32.ofNat captured.length) ++
      captured.flatMap Variable.encode
  | .binary _ | .storeThrough | .storeElement | .leave | .ret | .drop | .duplicate | .swap
  | .element | .test _ | .readNumber | .writeNumber | .length | .print | .stop => []

def encode (instruction : Instruction) : List UInt8 := instruction.opcode :: instruction.operands

end Instruction

end BytecodeMachine
