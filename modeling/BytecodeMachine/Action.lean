import BytecodeMachine.Fault
/-!
# Actions

An action changes a state and answers a value, or faults. A fault leaves a state
behind as well, the one that had been reached: nothing is rolled back. An
observation reads a state and changes nothing; it becomes an action by `observe`.
-/
namespace BytecodeMachine

/-- A step on a state that answers a value or faults, with the state it leaves. -/
abbrev Action (σ α : Type) := EStateM Fault σ α

/-- What a computation that changes nothing answers. -/
abbrev Answer (α : Type) := Except Fault α

/-- Answers as they are, and adds a context to a fault. -/
def Answer.during {α : Type} (context : Context) : Answer α → Answer α
  | .ok a => .ok a
  | .error cause => .error (.during context cause)

namespace Action

variable {σ τ α : Type}

/-- The action that answers what `look` sees in the state. -/
def observe (look : σ → Answer α) : Action σ α := fun s =>
  match look s with
  | .ok a => .ok a s
  | .error cause => .error cause s

/-- The action that answers `given` in every state. -/
def answer (given : Answer α) : Action σ α := observe fun _ => given

/-- Adds a context to a fault and keeps everything else. -/
def during (context : Context) (action : Action σ α) : Action σ α := fun s =>
  match action s with
  | .ok a s => .ok a s
  | .error cause s => .error (.during context cause) s

/-- A sequence succeeds when both parts do, the second one from where the first one ended. -/
theorem bind_eq_ok_iff {β : Type} {first : Action σ α} {next : α → Action σ β} {s t : σ} {b : β} :
    (first >>= next) s = .ok b t ↔ ∃ a u, first s = .ok a u ∧ next a u = .ok b t := by
  simp only [bind, EStateM.bind]
  cases first s with
  | ok a u => exact ⟨fun done => ⟨a, u, rfl, done⟩, by rintro ⟨_, _, ⟨⟩, done⟩; exact done⟩
  | error cause u => simp

/-- A sequence faults in its first part, or in its second one after the first has succeeded. The
second one is not begun behind a fault, so the state that is left is that of the part that
faults. -/
theorem bind_eq_error_iff {β : Type} {first : Action σ α} {next : α → Action σ β} {s t : σ}
    {cause : Fault} :
    (first >>= next) s = .error cause t ↔
      first s = .error cause t ∨ ∃ a u, first s = .ok a u ∧ next a u = .error cause t := by
  simp only [bind, EStateM.bind]
  cases first s with
  | ok a u =>
    exact ⟨fun done => .inr ⟨a, u, rfl, done⟩, by rintro (⟨⟨⟩⟩ | ⟨_, _, ⟨⟩, done⟩); exact done⟩
  | error cause u => simp

end Action

end BytecodeMachine
