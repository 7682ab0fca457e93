import BytecodeMachine.Proofs.Machine.History
import BytecodeMachine.Proofs.Simulation
/-!
# Machines turn by turn

Where a machine is after a number of turns. A turn leaves a machine behind however it ends, so
this is always some machine: one that has halted or faulted goes on where it was left. All
states that a machine comes to are of this form.

Two machines whose turns track one another are compared here, state by state and run by run.
What it takes for a turn to track another is left to those who compare.
-/
namespace BytecodeMachine.Machine

open BytecodeMachine.Action

/-- The machine that a turn or a run leaves behind. -/
def leftBy {σ α : Type} : EStateM.Result Fault (Machine σ) α → Machine σ
  | .ok _ m => m
  | .error _ m => m

/-- The machine after a number of turns. -/
def afterTurns {σ : Type} [Host σ] (image : Image) : Nat → Machine σ → Machine σ
  | 0, m => m
  | turns + 1, m => leftBy (advance image (afterTurns image turns m))

/-- The machine around another host. -/
def mapHost {σ τ : Type} (f : σ → τ) (m : Machine σ) : Machine τ :=
  ⟨m.stack, m.globals, f m.host, m.frame, m.next, m.line, m.depth⟩

/-- How a turn or a run ends, with the machine that it leaves around another host. -/
def mapLeft {σ τ α : Type} (f : σ → τ) :
    EStateM.Result Fault (Machine σ) α → EStateM.Result Fault (Machine τ) α
  | .ok a m => .ok a (m.mapHost f)
  | .error cause m => .error cause (m.mapHost f)

/-- A host that is left alone leaves the machine alone. -/
theorem mapHost_id {σ : Type} : mapHost id = (id : Machine σ → Machine σ) := rfl

/-- And with it the end of an action. -/
theorem mapLeft_id {σ α : Type} (ended : EStateM.Result Fault (Machine σ) α) :
    mapLeft id ended = ended := by
  cases ended <;> rfl

section

variable {σ : Type} [Host σ] {image : Image} {capacity : Nat} {host : σ} {m n : Machine σ}

/-- One more turn, which goes on. -/
theorem afterTurns_of_ok {turns : Nat} {flow : Flow}
    (advanced : advance image (afterTurns image turns m) = .ok flow n) :
    afterTurns image (turns + 1) m = n := by
  rw [afterTurns, advanced]
  rfl

/-- One more turn, which faults. The state that is left behind counts as the next one. -/
theorem afterTurns_of_error {turns : Nat} {cause : Fault}
    (faulted : advance image (afterTurns image turns m) = .error cause n) :
    afterTurns image (turns + 1) m = n := by
  rw [afterTurns, faulted]
  rfl

/-- The instruction of the next turn, if it succeeds and the run goes on behind it. -/
def executes? {σ : Type} [Host σ] (image : Image) (m : Machine σ) : Option Instruction :=
  match fetch image m.next, advance image m with
  | .ok (instruction, _), .ok .next _ => some instruction
  | _, _ => none

/-- What has been checked by computation, as the statement about the machine: it decodes this
instruction and goes on. -/
theorem executes?_eq_some {turns : Nat} {instruction : Instruction}
    (executes : executes? image (afterTurns image turns m) = some instruction) :
    (∃ behind, fetch image (afterTurns image turns m).next = .ok (instruction, behind)) ∧
      advance image (afterTurns image turns m) = .ok .next (afterTurns image (turns + 1) m) := by
  unfold executes? at executes
  split at executes
  · next found behind n fetched advanced =>
    cases executes
    refine ⟨⟨behind, fetched⟩, ?_⟩
    rw [advanced, afterTurns_of_ok advanced]
  · cases executes

/-- Any number of turns is an interval of a run. Proof: induction on the turns, whether they are
answered or fault. -/
theorem later_afterTurns (turns more : Nat) :
    Later image (afterTurns image turns m) (afterTurns image (turns + more) m) := by
  induction more with
  | zero => exact .refl
  | succ more earlier =>
    cases ended : advance image (afterTurns image (turns + more) m) with
    | ok flow n =>
      rw [← Nat.add_assoc, afterTurns_of_ok ended]
      exact earlier.turn ended
    | error cause n =>
      rw [← Nat.add_assoc, afterTurns_of_error ended]
      exact earlier.fault ended

/-- The states that a machine comes to are those after any number of turns. Going on behind a halt
or a fault is a turn as well, so no state is left out. -/
theorem reachable_iff_afterTurns :
    Reachable image capacity host n ↔
      ∃ allocator m turns, (Machine.start image capacity allocator host).2 = .ok m ∧
        afterTurns image turns m = n := by
  constructor
  · intro reachable
    induction reachable with
    | start made => exact ⟨_, _, 0, made, rfl⟩
    | turn _ advanced earlier =>
      obtain ⟨allocator, m, turns, made, rfl⟩ := earlier
      exact ⟨allocator, m, turns + 1, made, afterTurns_of_ok advanced⟩
    | fault _ faulted earlier =>
      obtain ⟨allocator, m, turns, made, rfl⟩ := earlier
      exact ⟨allocator, m, turns + 1, made, afterTurns_of_error faulted⟩
  · rintro ⟨allocator, m, turns, made, rfl⟩
    induction turns with
    | zero => exact .start made
    | succ turns earlier =>
      cases ended : advance image (afterTurns image turns m) with
      | ok flow n =>
        rw [afterTurns_of_ok ended]
        exact .turn earlier ended
      | error cause n =>
        rw [afterTurns_of_error ended]
        exact .fault earlier ended

/-- A run is a turn and, if the machine goes on, the run from there. A halt or a fault ends it,
however many turns are left. -/
theorem run_succ (turns : Nat) :
    run image (turns + 1) m =
      match advance image m with
      | .ok .next n => run image turns n
      | .ok .halt n => some (.ok () n)
      | .error cause n => some (.error cause n) := by
  simp only [run, runWith]
  cases advance image m with
  | ok flow n => cases flow <;> rfl
  | error cause n => rfl

end

section

variable {σ τ : Type} [Host σ] [Host τ] {image longer : Image} {strict : Prop}
  {R : Machine σ → Machine τ → Prop} {m : Machine σ} {n : Machine τ}

/-- Machines are related after a number of turns if every turn up to there tracks the other
one. Where faults are not compared the turns have to be answered. -/
theorem related_afterTurns {turns : Nat} (related : R m n)
    (answers : strict ∨ ∀ turn < turns, ∃ flow s,
      advance image (afterTurns image turn m) = .ok flow s)
    (tracks : ∀ turn < turns, R (afterTurns image turn m) (afterTurns longer turn n) →
      Tracks strict R (advance image) (advance longer) (afterTurns image turn m)
        (afterTurns longer turn n)) :
    R (afterTurns image turns m) (afterTurns longer turns n) := by
  induction turns with
  | zero => exact related
  | succ turns earlier =>
    have before := earlier
      (answers.imp_right fun answers turn sooner => answers turn (Nat.lt_succ_of_lt sooner))
      fun turn sooner => tracks turn (Nat.lt_succ_of_lt sooner)
    have turned := tracks turns (Nat.lt_succ_self turns) before
    cases ended : advance image (afterTurns image turns m) with
    | ok flow s =>
      obtain ⟨t, done, later⟩ := turned.of_ok ended
      rw [afterTurns_of_ok ended, afterTurns_of_ok done]
      exact later
    | error cause s =>
      -- a fault is compared only if the comparison is strict
      obtain full | answers := answers
      · obtain ⟨t, done, later⟩ := turned.of_error full ended
        rw [afterTurns_of_error ended, afterTurns_of_error done]
        exact later
      · obtain ⟨flow, s', answered⟩ := answers turns (Nat.lt_succ_self turns)
        rw [ended] at answered
        cases answered

omit [Host σ] [Host τ] in
/-- Where the machines that are related look the same, actions that track one another strictly
end the same for those who look. -/
theorem mapLeft_eq_of_tracks {υ α : Type} {f : σ → υ} {g : τ → υ} {first : Action (Machine σ) α}
    {second : Action (Machine τ) α} (looks : ∀ s t, R s t → s.mapHost f = t.mapHost g)
    (tracks : Tracks True R first second m n) : mapLeft f (first m) = mapLeft g (second n) := by
  cases ended : first m with
  | ok a s =>
    obtain ⟨t, done, later⟩ := tracks.of_ok ended
    rw [done, mapLeft, mapLeft, looks s t later]
  | error cause s =>
    obtain ⟨t, done, later⟩ := tracks.of_error trivial ended
    rw [done, mapLeft, mapLeft, looks s t later]

/-- Where turns track one another, so do runs: the other run halts where the one halts and, in a
strict comparison, it faults where the one faults and has not ended where the one has not. -/
theorem run_tracks (steps : Simulates strict R (advance image) (advance longer))
    (related : R m n) (turns : Nat) :
    match run image turns m with
    | some (.ok () s) => ∃ t, run longer turns n = some (.ok () t) ∧ R s t
    | some (.error cause s) => strict → ∃ t, run longer turns n = some (.error cause t) ∧ R s t
    | none => strict → run longer turns n = none := by
  induction turns generalizing m n with
  | zero => exact fun _ => rfl
  | succ turns later =>
    rw [run_succ, run_succ]
    have turned := steps m n related
    cases ended : advance image m with
    | error cause s =>
      intro full
      obtain ⟨t, done, left⟩ := turned.of_error full ended
      rw [done]
      exact ⟨t, rfl, left⟩
    | ok flow s =>
      obtain ⟨t, done, goesOn⟩ := turned.of_ok ended
      rw [done]
      cases flow with
      | next => exact later goesOn
      | halt => exact ⟨t, rfl, goesOn⟩

/-- A run that halts is followed turn by turn, and so the other one halts too. -/
theorem run_halts_of_simulates {turns : Nat} {s : Machine σ}
    (steps : Simulates strict R (advance image) (advance longer)) (related : R m n)
    (halted : run image turns m = some (.ok () s)) :
    ∃ t, run longer turns n = some (.ok () t) ∧ R s t := by
  have tracked := run_tracks steps related turns
  rwa [halted] at tracked

/-- Runs whose turns track one another strictly end the same for those who look, or both of them
have not ended within that many turns. -/
theorem run_mapLeft_eq {υ : Type} {f : σ → υ} {g : τ → υ} {turns : Nat}
    (looks : ∀ s t, R s t → s.mapHost f = t.mapHost g)
    (steps : Simulates True R (advance image) (advance longer)) (related : R m n) :
    (run image turns m).map (mapLeft f) = (run longer turns n).map (mapLeft g) := by
  have tracked := run_tracks steps related turns
  cases ended : run image turns m with
  | none =>
    rw [ended] at tracked
    rw [tracked trivial]
    rfl
  | some ending =>
    rw [ended] at tracked
    cases ending with
    | ok a s =>
      obtain ⟨t, done, later⟩ := tracked
      simp only [done, Option.map_some, mapLeft, looks s t later]
    | error cause s =>
      obtain ⟨t, done, later⟩ := tracked trivial
      simp only [done, Option.map_some, mapLeft, looks s t later]

end

end BytecodeMachine.Machine
