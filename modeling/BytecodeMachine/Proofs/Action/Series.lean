import BytecodeMachine.Proofs.Simulation
/-!
# Actions one after another

A series goes on behind a fault: the next action is taken from the state that the fault has
left. This is how those who hold a state from outside use it, one request at a time. What they
see are the answers and the faults, in order.

Actions that simulate others one by one, faults included, do so in a series as well.
-/
namespace BytecodeMachine.Action

variable {σ τ α ι : Type}

/-- What an action answers or faults with, and the state that it leaves. -/
def outcome (action : Action σ α) (s : σ) : Answer α × σ :=
  match action s with
  | .ok a t => (.ok a, t)
  | .error cause t => (.error cause, t)

/-- The outcomes of actions, each from the state that the one before has left, and the state
behind the last one. -/
def series : List (Action σ α) → σ → List (Answer α) × σ
  | [], s => ([], s)
  | action :: later, s =>
    let (given, t) := action.outcome s
    let (others, last) := series later t
    (given :: others, last)

variable {action : Action σ α} {s t : σ}

/-- What comes of an action that answers: the answer, and the state that is reached. -/
@[simp]
theorem outcome_of_ok {a : α} (answered : action s = .ok a t) : action.outcome s = (.ok a, t) := by
  rw [outcome, answered]

/-- What comes of an action that faults: the fault, and the state that is left behind. -/
@[simp]
theorem outcome_of_error {cause : Fault} (faulted : action s = .error cause t) :
    action.outcome s = (.error cause, t) := by
  rw [outcome, faulted]

/-- What comes of a sequence is what comes of its second part where the first one ends, or the
fault of the first part together with the state it leaves. -/
theorem outcome_bind {β : Type} (first : Action σ α) (next : α → Action σ β) (s : σ) :
    (first >>= next).outcome s =
      match first.outcome s with
      | (.ok a, t) => (next a).outcome t
      | (.error cause, t) => (.error cause, t) := by
  simp only [outcome, bind, EStateM.bind]
  cases first s <;> rfl

/-- A given answer is all that comes of it, and the state stays. -/
theorem outcome_answer (given : Answer α) (s : σ) : (answer given).outcome s = (given, s) := by
  cases given <;> rfl

/-- A series does its first action and goes on with the others from whatever state that one leaves,
also behind a fault. -/
theorem series_cons (action : Action σ α) (later : List (Action σ α)) (s : σ) :
    series (action :: later) s =
      ((action.outcome s).1 :: (series later (action.outcome s).2).1,
        (series later (action.outcome s).2).2) := rfl

/-- If faults are compared as well, actions that track one another come to the same, and their
states are related afterwards. There are the two cases of an answer and of a fault, and each is
carried over to the other side. -/
theorem Tracks.outcome_eq {R : σ → τ → Prop} {other : Action τ α} {u : τ}
    (tracks : Tracks True R action other s u) :
    (other.outcome u).1 = (action.outcome s).1 ∧ R (action.outcome s).2 (other.outcome u).2 := by
  cases ended : action s with
  | ok a s' =>
    obtain ⟨u', done, related⟩ := tracks.of_ok ended
    rw [outcome_of_ok ended, outcome_of_ok done]
    exact ⟨rfl, related⟩
  | error cause s' =>
    obtain ⟨u', done, related⟩ := tracks.of_error trivial ended
    rw [outcome_of_error ended, outcome_of_error done]
    exact ⟨rfl, related⟩

/-- What holds of two actions for each request holds of any sequence of requests. Proof: induction
on the requests; a fault does not stop the series, and relates the states behind it as an answer
does. -/
theorem series_of_simulates {R : σ → τ → Prop} {first : ι → Action σ α} {second : ι → Action τ α}
    (each : ∀ i, Simulates True R (first i) (second i)) (requests : List ι) {s : σ} {t : τ}
    (related : R s t) :
    (series (requests.map second) t).1 = (series (requests.map first) s).1 ∧
      R (series (requests.map first) s).2 (series (requests.map second) t).2 := by
  induction requests generalizing s t with
  | nil => exact ⟨rfl, related⟩
  | cons request later goesOn =>
    obtain ⟨same, between⟩ := (each request s t related).outcome_eq
    obtain ⟨rest, last⟩ := goesOn between
    simp only [List.map_cons, series_cons]
    exact ⟨by rw [same, rest], last⟩

end BytecodeMachine.Action
