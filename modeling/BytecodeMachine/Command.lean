import BytecodeMachine.Command.Arguments
import BytecodeMachine.Image.Layout
/-!
# Commands

What the two commands have in common: how they load their file, and what is left
when they have ended. A command that fails exits with status 255, one that is
called wrongly with status 2.
-/
namespace BytecodeMachine

/-- What a command leaves when it ends. -/
structure Report where
  output : Array UInt8 := #[]
  failure : Option Fault := none
  /-- Why the arguments were refused. -/
  misuse : Option Arguments.Misuse := none
  /-- Whether an event has been shown. -/
  traced : Bool := false
deriving DecidableEq, Repr

namespace Report

/-- The status of a command whose arguments are refused. -/
def misuseStatus : Nat := 2

/-- The status of a command that fails. -/
def failureStatus : Nat := 255

def status (report : Report) : Nat :=
  if report.misuse.isSome then misuseStatus
  else if report.failure.isSome then failureStatus
  else 0

/-- How a failure is reported. -/
def failureLine (cause : Fault) : String := "*** FAILURE: " ++ cause.message ++ "\n"

/-- A report of these lines. -/
def ofLines (lines : List String) (failure : Option Fault) : Report :=
  { output := (String.join (lines.map (· ++ "\n"))).toUTF8.data, failure := failure }

end Report

/-- The image in a file, given what reading the file has answered. -/
def loadImage (path : String) (file : Answer (List UInt8)) : Answer Image :=
  match file with
  | .ok bytes => Answer.during (.loadingFile path) (Image.parse .detected bytes)
  | .error cause => .error (.during (.readingFile path) cause)

/-- A command: what it is called and what it accepts. -/
structure Command where
  name : String
  purpose : String
  shape : Arguments.Shape

namespace Command

/-- The version of both commands. -/
def version : String := "0.1.0"

def versionLine (command : Command) : String := command.name ++ " " ++ version

def helpLines (command : Command) : List String :=
  [command.purpose, "", "Usage: " ++ command.name ++ " [OPTIONS] <FILE>", "", "Options:"] ++
    (command.shape.flags ++ ["help", "version"]).map fun flag => "      --" ++ flag

/-- The file and the flags that the arguments name, or the report if there is nothing to be
done with a file. -/
def request (command : Command) (arguments : List String) :
    Except Report (String × List String) :=
  match Arguments.request command.shape arguments with
  | .version => .error (Report.ofLines [command.versionLine] none)
  | .help => .error (Report.ofLines command.helpLines none)
  | .refuse cause => .error { misuse := some cause }
  | .proceed file flags => .ok (file, flags)

end Command

end BytecodeMachine
