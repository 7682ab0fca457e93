import BytecodeMachine.Action
import BytecodeMachine.Text.Blank
/-!
# The console

A program reads and writes integers. Before each reading a prompt is written. Input
is taken line by line and falls into words at blanks, so several numbers may share
a line; a line that is not well-formed UTF-8 is refused as a whole, and the next
reading goes on behind it.

Output can fail: a sink may take only so many bytes, or refuse to be flushed.
-/
namespace BytecodeMachine

/-- How output can fail. -/
structure Sink where
  /-- How many bytes are taken, if not all. -/
  room : Option Nat := none
  refusesFlush : Bool := false
deriving DecidableEq, Repr

structure Console where
  /-- The bytes that have not been read. -/
  input : List UInt8 := []
  /-- The words of the current line that have not been asked for. -/
  pending : List String := []
  output : Array UInt8 := #[]
  sink : Sink := {}
deriving DecidableEq, Repr

namespace Console

/-- Splits off the first line, with the line feed that ends it if there is one. -/
def takeLine (bytes : List UInt8) : List UInt8 × List UInt8 :=
  match bytes.dropWhile (· != 10) with
  | [] => (bytes, [])
  | feed :: rest => (bytes.takeWhile (· != 10) ++ [feed], rest)

/-- A line of an input that is not empty takes a byte at least, so reading lines ends. What is
dropped behind the line feed is a suffix of the input, without the line feed itself. -/
theorem takeLine_length (b : UInt8) (rest : List UInt8) :
    (takeLine (b :: rest)).2.length ≤ rest.length := by
  have shorter := ((b :: rest).dropWhile_suffix (· != 10)).length_le
  unfold takeLine
  split
  · simp
  · next found =>
    rw [found] at shorter
    simpa using shorter

/-- The words of a line. -/
def lineWords (line : List UInt8) : Answer (List String) :=
  match Utf8.decode? line with
  | some cs => .ok ((Text.words cs).map String.ofList)
  | none => .error (.during .readingInput (.world .illFormedInput))

/-- Reads lines up to the first one that has a word or is refused. Gives its words and the
input behind it. -/
def readLine : List UInt8 → Answer (List String) × List UInt8
  | [] => (.error (.world .endOfInput), [])
  | b :: rest =>
    have := takeLine_length b rest
    match lineWords (takeLine (b :: rest)).1 with
    | .ok [] => readLine (takeLine (b :: rest)).2
    | answer => (answer, (takeLine (b :: rest)).2)
termination_by bytes => bytes.length
decreasing_by simp only [List.length_cons]; omega

/-- The next word of the input. -/
def nextWord : Action Console String := fun console =>
  match console.pending with
  | word :: rest => .ok word { console with pending := rest }
  | [] =>
    match readLine console.input with
    | (.ok (word :: rest), input) => .ok word { console with input := input, pending := rest }
    | (.ok [], input) => .error (.world .endOfInput) { console with input := input }
    | (.error cause, input) => .error cause { console with input := input }

/-- Whether the next reading can be answered without further input. -/
def canAnswer (console : Console) : Bool :=
  !console.pending.isEmpty ||
    match (readLine console.input).1 with
    | .error (.world .endOfInput) => false
    | _ => true

/-- Adds bytes behind the input that has not been read. -/
def feed (bytes : List UInt8) (console : Console) : Console :=
  { console with input := console.input ++ bytes }

/-- Writes bytes, as many as there is room for. -/
def write (bytes : List UInt8) : Action Console Unit := fun console =>
  let taken : List UInt8 :=
    match console.sink.room with
    | none => bytes
    | some room => bytes.take (room - console.output.size)
  let written := { console with output := console.output ++ taken }
  if taken.length < bytes.length then .error (.world .outputFull) written else .ok () written

def flush : Action Console Unit := fun console =>
  if console.sink.refusesFlush then .error (.world .flushRefused) console else .ok () console

/-- The numeral of a word of the input. -/
def parse (word : String) : Answer Int32 :=
  match Decimal.readInt32 word.toList with
  | .ok number => .ok number
  | .error cause => .error (.during (.readingToken word) (.number cause))

/-- The prompt, `> `. -/
def prompt : List UInt8 := [0x3E, 0x20]

/-- Prompts for a number and reads it. A word that is no number is used up. -/
def readNumber : Action Console Int32 := do
  (write prompt).during .writingPrompt
  flush.during .flushingPrompt
  Action.answer (parse (← nextWord))

/-- The bytes of a number's line. -/
def numberLine (number : Int32) : List UInt8 :=
  (Decimal.chars number.toInt).map (fun c => UInt8.ofNat c.toNat) ++ [10]

/-- Writes a number on a line of its own. -/
def writeNumber (number : Int32) : Action Console Unit := do
  (write (numberLine number)).during .writingNumber
  flush.during .flushingNumber

end Console

end BytecodeMachine
