import BytecodeMachine.Listing
import BytecodeMachine.Text.Json
/-!
# Frequencies of instructions

Equal instructions of a listing are counted together. Two instructions are equal
when their bytes are: opcode and operands, and for `stop` the low half of the opcode
as well. The most frequent come first, and among equally frequent ones those whose
bytes, compared as unsigned numbers, are smaller.
-/
namespace BytecodeMachine

/-- How often an instruction occurs. -/
structure Frequency where
  count : Nat
  mnemonic : String
  /-- Where it occurs first. -/
  offset : Nat
  bytes : List UInt8
deriving DecidableEq, Repr

namespace Frequency

/-- Lexicographic order of bytes. A proper beginning comes first. -/
def bytesLe : List UInt8 → List UInt8 → Bool
  | [], _ => true
  | _ :: _, [] => false
  | a :: as, b :: bs => a < b || (a == b && bytesLe as bs)

/-- The order of a report. -/
def before (a b : Frequency) : Bool :=
  b.count < a.count || (a.count == b.count && bytesLe a.bytes b.bytes)

end Frequency

/-- How often an instruction has been met, and where first. -/
structure Tally where
  count : Nat
  first : Entry
  bytes : List UInt8
deriving DecidableEq, Repr

namespace Tally

/-- Counts an entry with these bytes. An instruction that has not been met comes last. -/
def add (entry : Entry) (bytes : List UInt8) : List Tally → List Tally
  | [] => [⟨1, entry, bytes⟩]
  | met :: rest =>
    if met.bytes = bytes then { met with count := met.count + 1 } :: rest
    else met :: add entry bytes rest

/-- Counts the entries of a listing. -/
def ofEntries (image : Image) (entries : List Entry) : List Tally :=
  entries.foldl (fun met entry => add entry (entry.bytes image).toList met) []

/-- What is reported of an instruction. Its mnemonic is that of its first occurrence. -/
def frequency (image : Image) (met : Tally) : Answer Frequency := do
  return ⟨met.count, ← met.first.instruction.mnemonic image, met.first.offset, met.bytes⟩

end Tally

/-- The frequencies of an image's instructions, in the order of a report. -/
def Image.frequencies (image : Image) : Answer (List Frequency) := do
  let entries ← Listing.entries image
  let frequencies ← (Tally.ofEntries image entries).mapM (Tally.frequency image)
  return frequencies.mergeSort Frequency.before

namespace Frequency

/-- A line of the report. -/
def line (frequency : Frequency) : String :=
  Decimal.text frequency.count ++ ": " ++ frequency.mnemonic

/-- What the JSON report says of an instruction. -/
def members (frequency : Frequency) : List (String × Json.Scalar) :=
  [("count", .number frequency.count), ("mnemonic", .text frequency.mnemonic),
   ("offset", .number frequency.offset)]

/-- The report as JSON. -/
def json (frequencies : List Frequency) : String := Json.renderArray (frequencies.map members)

end Frequency

end BytecodeMachine
