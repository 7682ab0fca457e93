import BytecodeMachine.Machine.Step
/-!
# Runs

A run advances a machine until it halts or faults. It may be followed by an
observer, which sees the offset and the outcome of every turn and collects what it
likes; what it collects has no influence on the run. A run that never ends has no
result.

A machine that has halted or faulted can be run again: it goes on at its next
offset, with everything as it was left.
-/
namespace BytecodeMachine.Machine

variable {σ : Type} [Host σ]

/-- How a turn of a machine ends. -/
abbrev Outcome (σ : Type) := EStateM.Result Fault (Machine σ) Flow

/-- How a run of a machine ends. -/
abbrev Ending (σ : Type) := EStateM.Result Fault (Machine σ) Unit

/-- Runs a machine under an observer, for a number of turns at most. -/
def runWith {γ : Type} (image : Image) (observer : Nat → Outcome σ → γ → γ) :
    Nat → Machine σ → γ → Option (Ending σ × γ)
  | 0, _, _ => none
  | turns + 1, m, seen =>
    let offset := m.next
    match advance image m with
    | .ok .next m => runWith image observer turns m (observer offset (.ok .next m) seen)
    | .ok .halt m => some (.ok () m, observer offset (.ok .halt m) seen)
    | .error cause m => some (.error cause m, observer offset (.error cause m) seen)

/-- Runs a machine, for a number of turns at most. -/
def run (image : Image) (turns : Nat) (m : Machine σ) : Option (Ending σ) :=
  (runWith image (fun _ _ seen => seen) turns m ()).map (·.1)

/-- The states that a machine made for an image comes to, turn by turn, whatever allocator has
granted its words. A machine that has halted or faulted can be run again, so the states behind a
halt and behind a fault are among them. -/
inductive Reachable (image : Image) (capacity : Nat) (host : σ) : Machine σ → Prop
  | start {allocator : Allocator} {m : Machine σ}
      (made : (Machine.start image capacity allocator host).2 = .ok m) :
      Reachable image capacity host m
  | turn {m n : Machine σ} {flow : Flow} (before : Reachable image capacity host m)
      (advanced : advance image m = .ok flow n) : Reachable image capacity host n
  | fault {m n : Machine σ} {cause : Fault} (before : Reachable image capacity host m)
      (faulted : advance image m = .error cause n) : Reachable image capacity host n

/-- What an instruction announces when it has been executed. -/
def announced (offset : Nat) : Instruction → Outcome σ → List Event
  | .call _ arguments, .ok .next m => [.called m.depth m.next arguments.toInt.toNat]
  | .callClosure arguments, .ok .next m => [.called m.depth m.next arguments.toInt.toNat]
  | .leave, .ok .next m => [.returned m.depth m.next ((m.stack.peek 0).toOption.getD Value.zero)]
  | _, .ok .halt m => [.halted offset m.stack.size]
  | _, _ => []

/-- The events of a turn that started at an offset. What cannot be read is not announced. -/
def events (image : Image) (offset : Nat) (outcome : Outcome σ) : List Event :=
  match fetch image offset with
  | .ok (instruction, _) => .instruction offset :: announced offset instruction outcome
  | .error _ => []

end BytecodeMachine.Machine
