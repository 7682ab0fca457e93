import BytecodeMachine.Command
import BytecodeMachine.Listing.Frequency
/-!
# The dump command

Shows an image: its listing, or its public symbols, or the frequencies of its
instructions, as lines or as JSON. Public symbols are shown up to the first whose
name cannot be read; everything else is shown as a whole or not at all.
-/
namespace BytecodeMachine.Dump

/-- JSON is a form of the frequencies and goes without them only where the public symbols
are asked for, which exclude the frequencies. -/
def compatible (flags : List String) : Bool :=
  !(flags.contains "publics" && flags.contains "stats") &&
    (!flags.contains "json" || flags.contains "stats" || flags.contains "publics")

def command : Command where
  name := "byterun-dump"
  purpose := "Disassembles a bytecode file or reports instruction frequencies"
  shape := ⟨["stats", "json", "publics"], compatible⟩

def publicLine (image : Image) (symbol : PublicSymbol) : Answer String := do
  return (← image.publicName symbol) ++ "\t" ++ Hexadecimal.offset symbol.offset.toNat

/-- The lines of the public symbols, up to the first fault. -/
def publicLines (image : Image) : List PublicSymbol → List String × Option Fault
  | [] => ([], none)
  | symbol :: rest =>
    match publicLine image symbol with
    | .error cause => ([], some cause)
    | .ok line =>
      let (lines, failure) := publicLines image rest
      (line :: lines, failure)

/-- The lines that the flags ask for. -/
def contents (image : Image) (flags : List String) : List String × Option Fault :=
  if flags.contains "publics" then publicLines image image.publics
  else
    let lines : Answer (List String) := do
      if !flags.contains "stats" then image.listing
      else
        let frequencies ← image.frequencies
        if flags.contains "json" then return [Frequency.json frequencies]
        else return frequencies.map Frequency.line
    match lines with
    | .ok lines => (lines, none)
    | .error cause => ([], some cause)

/-- Carries out the command on a file, given what reading it has answered. -/
def reportOn (path : String) (flags : List String) (file : Answer (List UInt8)) : Report :=
  match loadImage path file with
  | .error cause => { failure := some cause }
  | .ok image =>
    let (lines, failure) := contents image flags
    Report.ofLines lines failure

/-- Carries out the command, given what reading each file answers. -/
def report (arguments : List String) (files : String → Answer (List UInt8)) : Report :=
  match command.request arguments with
  | .error report => report
  | .ok (path, flags) => reportOn path flags (files path)

end BytecodeMachine.Dump
