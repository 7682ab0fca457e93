import BytecodeMachine.Command.Dump
import BytecodeMachine.Command.Execute
/-!
# The programs

One executable serves both commands and tells them apart by its name: called by a
name that ends in `-dump` it shows an image, and otherwise it runs one. A run reads
its input when it is needed and writes its output at once, so it can be used at a
terminal; everything that is decided is decided by the commands.
-/
namespace BytecodeMachine.Main

/-- What reading a file answers. -/
def readFile (path : String) : IO (Answer (List UInt8)) := do
  try
    return .ok (← IO.FS.readBinFile path).data.toList
  catch
    | .noFileOrDirectory _ _ _ => return .error (.world .noSuchFile)
    | reason => return .error (.world (.unreadable (toString reason)))

/-- Writes a report and gives its status. -/
def finish (report : Report) : IO UInt32 := do
  let out ← IO.getStdout
  out.write ⟨report.output⟩
  out.flush
  if let some cause := report.misuse then IO.eprintln ("error: " ++ cause.message)
  if let some cause := report.failure then IO.eprint (Report.failureLine cause)
  return UInt32.ofNat report.status

/-- Shows the events that the filter lets through. -/
def showEvents (filter : Option Filter) (events : List Event) : IO Unit :=
  match filter with
  | none => pure ()
  | some filter =>
    for event in events do
      if filter.shows event then IO.eprintln (event.source ++ ": " ++ event.text)

/-- Reads a line, or what is left of the input. -/
partial def readLine (line : List UInt8) : IO (List UInt8) := do
  let read ← (← IO.getStdin).read 1
  match read.toList with
  | [] => return line.reverse
  | b :: _ => if b == 10 then return (b :: line).reverse else readLine (b :: line)

/-- Writes the output of a console from a position on. -/
def writeFrom (position : Nat) (console : Console) : IO Unit := do
  if position < console.output.size then
    let out ← IO.getStdout
    out.write ⟨console.output.extract position console.output.size⟩
    out.flush

/-- Reads lines until the next turn can be answered, or the input ends. -/
partial def feed (image : Image) (m : Machine Workspace) : IO (Machine Workspace) := do
  if !Execute.awaitsInput image m then return m
  match ← readLine [] with
  | [] => return m
  | line => feed image (Execute.feed line m)

/-- Gives a machine the input that its next turn needs. The prompt of that turn is shown
first. Answers how much of the output has been shown then. -/
def supply (image : Image) (shown : Nat) (m : Machine Workspace) :
    IO (Nat × Machine Workspace) := do
  if !Execute.awaitsInput image m then return (shown, m)
  let out ← IO.getStdout
  out.write ⟨Console.prompt.toArray⟩
  out.flush
  return (shown + Console.prompt.length, ← feed image m)

/-- Runs a machine to its end. The output up to `shown` has been written. -/
partial def follow (image : Image) (filter : Option Filter) (shown : Nat)
    (m : Machine Workspace) : IO UInt32 := do
  let (shown, m) ← supply image shown m
  let offset := m.next
  let outcome := Machine.advance image m
  if filter.isSome then showEvents filter (Machine.events image offset outcome)
  match outcome with
  | .ok .next m =>
    writeFrom shown m.host.console
    follow image filter m.host.console.output.size m
  | .ok .halt _ => return 0
  | .error cause m =>
    writeFrom shown m.host.console
    finish { failure := some cause }

/-- Loads and runs a file. The runtime of this program does not report that memory has run out,
so nothing is refused here for want of it. -/
def runFile (path : String) : IO UInt32 := do
  let filter := Settings.filter? (← IO.getEnv "BYTERUN_TRACE")
  let stackSize ← IO.getEnv "BYTERUN_STACK_SIZE"
  let prepared := Execute.prepare path (← readFile path) stackSize .boundless {}
  showEvents filter prepared.events
  match prepared.machine with
  | .error cause => finish { failure := some cause }
  | .ok (image, m) => follow image filter 0 m

/-- The run command. -/
def run (arguments : List String) : IO UInt32 := do
  match Execute.command.request arguments with
  | .error report => finish report
  | .ok (path, _) => runFile path

/-- The dump command. -/
def dump (arguments : List String) : IO UInt32 := do
  match Dump.command.request arguments with
  | .error report => finish report
  | .ok (path, flags) => finish (Dump.reportOn path flags (← readFile path))

end BytecodeMachine.Main

def main (arguments : List String) : IO UInt32 := do
  let name := (← IO.appPath).fileName.getD ""
  if name.endsWith "-dump" then BytecodeMachine.Main.dump arguments
  else BytecodeMachine.Main.run arguments
