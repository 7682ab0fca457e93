import BytecodeMachine.Command
import BytecodeMachine.Command.Settings
import BytecodeMachine.Host.Workspace
import BytecodeMachine.Machine.Run
/-!
# The run command

Loads an image and runs it on a workspace. The settings are looked at once the
image is there. Events are shown through the filter, if the trace is on.
-/
namespace BytecodeMachine.Execute

def command : Command where
  name := "byterun"
  purpose := "Runs a compiled SM bytecode file"
  shape := ⟨[], fun _ => true⟩

/-- A machine that is ready to run, or why there is none, and what has been announced. -/
structure Prepared where
  events : List Event
  machine : Answer (Image × Machine Workspace)

/-- Makes the machine for a file, given what reading the file has answered. -/
def prepare (path : String) (file : Answer (List UInt8)) (stackSize : Option String)
    (allocator : Allocator) (host : Workspace) : Prepared :=
  match loadImage path file with
  | .error cause => ⟨[], .error cause⟩
  | .ok image =>
    let loaded := Event.loaded path image.code.size image.publics.length
    let capacity : Answer Nat :=
      match stackSize with
      | none => .ok Machine.defaultCapacity
      | some setting => Settings.stackSize setting
    match capacity with
    | .error cause => ⟨[loaded], .error cause⟩
    | .ok capacity =>
      let (events, machine) := Machine.start image capacity allocator host
      ⟨loaded :: events, machine.map fun m => (image, m)⟩

/-- Whether a filter, if there is one, shows one of these events. -/
def showsAny (filter : Option Filter) (events : List Event) : Bool :=
  match filter with
  | none => false
  | some filter => events.any filter.shows

/-- Follows a run to see whether an event is shown. -/
def watch (image : Image) (filter : Option Filter) (offset : Nat)
    (outcome : Machine.Outcome Workspace) (traced : Bool) : Bool :=
  traced || (filter.isSome && showsAny filter (Machine.events image offset outcome))

/-- Whether the next turn reads a number that the input so far cannot answer. -/
def awaitsInput (image : Image) (m : Machine Workspace) : Bool :=
  match Machine.fetch image m.next with
  | .ok (.readNumber, _) => !m.host.console.canAnswer
  | _ => false

/-- Gives a machine further input. -/
def feed (bytes : List UInt8) (m : Machine Workspace) : Machine Workspace :=
  { m with host := { m.host with console := m.host.console.feed bytes } }

/-- What a finished run leaves. -/
def ended (ending : Machine.Ending Workspace) (traced : Bool) : Report :=
  match ending with
  | .ok () m => { output := m.host.console.output, traced := traced }
  | .error cause m =>
    { output := m.host.console.output, failure := some cause, traced := traced }

/-- What the command is given besides its arguments. -/
structure World where
  files : String → Answer (List UInt8)
  input : List UInt8 := []
  trace : Option String := none
  stackSize : Option String := none
  allocator : Allocator := .boundless

/-- Carries out the command. There is no report of a run that has not ended after so many
turns. -/
def report? (turns : Nat) (arguments : List String) (world : World) : Option Report :=
  match command.request arguments with
  | .error report => some report
  | .ok (path, _) =>
    let filter := Settings.filter? world.trace
    let host := Workspace.ofInput world.input {}
    let prepared := prepare path (world.files path) world.stackSize world.allocator host
    let traced := showsAny filter prepared.events
    match prepared.machine with
    | .error cause => some { failure := some cause, traced := traced }
    | .ok (image, m) =>
      (Machine.runWith image (watch image filter) turns m traced).map fun (ending, traced) =>
        ended ending traced

end BytecodeMachine.Execute
