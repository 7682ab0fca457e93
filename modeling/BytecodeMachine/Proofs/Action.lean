import BytecodeMachine.Action
/-!
# How actions end

Judgments on actions. `Ends` says of one state what holds when the action is over, apart
for answers and for faults, so that nothing is lost about the state that a fault leaves
behind. From it come `Keeps`, that a part of every state is the same afterwards however
the action ends; `Spares`, that it is the same behind a fault; and `Maintains`, that what
holds before holds afterwards.

All go through sequences by laws of their own, so a statement about an instruction is put
together from statements about the actions it is made of.
-/
namespace BytecodeMachine

/-- What holds of an answer, or of the fault that stands in its place. -/
def Answer.Ends {α : Type} (given : Answer α) (done : α → Prop) (failed : Fault → Prop) : Prop :=
  match given with
  | .ok a => done a
  | .error cause => failed cause

/-- A context is added to faults only, so it plays no part in what is answered. -/
theorem Answer.during_eq_ok_iff {α : Type} {context : Context} {given : Answer α} {a : α} :
    Answer.during context given = .ok a ↔ given = .ok a := by
  cases given <;> simp [Answer.during]

/-- A computation in two parts answers if both parts do, the second one given the answer of the
first. -/
theorem Answer.bind_eq_ok_iff {α β : Type} {given : Answer α} {next : α → Answer β} {b : β} :
    (given >>= next) = .ok b ↔ ∃ a, given = .ok a ∧ next a = .ok b := by
  cases given <;> simp [bind, Except.bind]

/-- A question with a precondition is answered exactly if the condition holds. The two cases are
those of the condition: where it holds the answer is the one found, and where not there is a
fault. -/
theorem Answer.dite_eq_ok_iff {α : Type} {P : Prop} [Decidable P] {found : P → α} {cause : Fault}
    {a : α} :
    (if h : P then .ok (found h) else .error cause : Answer α) = .ok a ↔ ∃ h : P, found h = a := by
  by_cases h : P
  · rw [dif_pos h, Except.ok.injEq]
    exact ⟨fun same => ⟨h, same⟩, fun ⟨_, same⟩ => same⟩
  · rw [dif_neg h]
    constructor
    · intro answered
      cases answered
    · rintro ⟨holds, _⟩
      exact absurd holds h

/-- An answer is a value or a fault, and never both: to fault is to have no value. -/
theorem Answer.exists_error_iff {α : Type} {given : Answer α} :
    (∃ cause, given = .error cause) ↔ ¬ ∃ a, given = .ok a := by
  cases given <;> simp

namespace Action

variable {σ α β γ : Type}

/-- Looking at the whole state answers the state and leaves it where it is. -/
theorem get_eq_ok_iff {s t found : σ} :
    (get : Action σ σ) s = .ok found t ↔ found = s ∧ t = s := by
  constructor
  · rintro ⟨⟩
    exact ⟨rfl, rfl⟩
  · rintro ⟨rfl, rfl⟩
    rfl

/-- A fault is no answer. -/
@[simp]
theorem throw_ne_ok {cause : Fault} {s t : σ} {a : α} :
    (throw cause : Action σ α) s ≠ .ok a t := by
  intro answered
  cases answered

/-- A request with a precondition is answered exactly if the condition holds. What it answers and
where it leads may depend on the condition; if it fails, the request is refused. -/
theorem dite_eq_ok_iff {P : Prop} [Decidable P] {answer : P → α} {reached : P → σ} {cause : Fault}
    {left t : σ} {a : α} :
    (if h : P then .ok (answer h) (reached h) else .error cause left :
        EStateM.Result Fault σ α) = .ok a t ↔
      ∃ h : P, answer h = a ∧ reached h = t := by
  by_cases h : P
  · rw [dif_pos h, EStateM.Result.ok.injEq]
    exact ⟨fun same => ⟨h, same⟩, fun ⟨_, same⟩ => same⟩
  · rw [dif_neg h]
    constructor
    · intro answered
      cases answered
    · rintro ⟨holds, _⟩
      exact absurd holds h

/-- A look at the state answers what it sees, and the state stays. Both sides are read off the
answer that the look gives. -/
theorem observe_eq_ok_iff {look : σ → Answer α} {s t : σ} {a : α} :
    observe look s = .ok a t ↔ look s = .ok a ∧ t = s := by
  simp only [observe]
  cases look s <;> simp [eq_comm]

/-- A look that is refused faults, and leaves the state as it is. -/
theorem observe_of_error {look : σ → Answer α} {s : σ} {cause : Fault}
    (refused : look s = .error cause) : observe look s = .error cause s := by
  rw [observe, refused]

/-- A sequence goes on behind what has answered. -/
theorem bind_of_ok {first : Action σ α} {next : α → Action σ β} {s t : σ} {a : α}
    (answered : first s = .ok a t) : (first >>= next) s = next a t := by
  simp only [bind, EStateM.bind, answered]

/-- Running an action for its answer alone gives one exactly if the action answers. -/
theorem run'_eq_some_iff {action : Action σ α} {s : σ} {a : α} :
    action.run' s = some a ↔ ∃ t, action s = .ok a t := by
  delta EStateM.run' EStateM.run
  cases action s <;> simp

/-- What starts with a look at the state faults there, where it is, or goes on from there. Looking
changes nothing, so in both cases the state is the one that it started from. -/
theorem observe_bind_eq_error {look : σ → Answer α} {next : α → Action σ β} {s t : σ}
    {cause : Fault} (faulted : (observe look >>= next) s = .error cause t) :
    t = s ∨ ∃ a, look s = .ok a ∧ next a s = .error cause t := by
  simp only [bind, EStateM.bind, observe] at faulted
  cases seen : look s with
  | ok a =>
    simp only [seen] at faulted
    exact .inr ⟨a, rfl, faulted⟩
  | error _ =>
    simp only [seen] at faulted
    cases faulted
    exact .inl rfl

/-- As for answers, a context has no part in an action that succeeds: the action alone gives the
answer and the state. -/
theorem during_eq_ok_iff {context : Context} {action : Action σ α} {s t : σ} {a : α} :
    action.during context s = .ok a t ↔ action s = .ok a t := by
  simp only [during]
  cases action s <;> simp

/-- What holds when an action from `s` is over: of its answer and the state reached, or of
its fault and the state left behind. -/
def Ends (action : Action σ α) (s : σ) (done : α → σ → Prop) (failed : Fault → σ → Prop) : Prop :=
  match action s with
  | .ok a t => done a t
  | .error cause t => failed cause t

/-- A request with a precondition ends in its answer if the condition holds, and in its refusal if
it does not. -/
theorem Ends.of_dite {action : Action σ α} {s left : σ} {P : Prop} [Decidable P] {answer : P → α}
    {reached : P → σ} {cause : Fault} {done : α → σ → Prop} {failed : Fault → σ → Prop}
    (acts : action s = if h : P then .ok (answer h) (reached h) else .error cause left)
    (answered : ∀ h, done (answer h) (reached h)) (refused : ¬ P → failed cause left) :
    action.Ends s done failed := by
  unfold Ends
  rw [acts]
  by_cases h : P
  · rw [dif_pos h]
    exact answered h
  · rw [dif_neg h]
    exact refused h

/-- A sequence ends as its second part does, from wherever the first part may lead. A fault of
the first part is a fault of the sequence. -/
theorem Ends.bind {first : Action σ α} {next : α → Action σ β} {s : σ}
    {middle : α → σ → Prop} {done : β → σ → Prop} {failed : Fault → σ → Prop}
    (begins : first.Ends s middle failed)
    (goesOn : ∀ a t, middle a t → (next a).Ends t done failed) :
    (first >>= next).Ends s done failed := by
  unfold Ends at begins ⊢
  simp only [Bind.bind, EStateM.bind]
  cases ended : first s with
  | ok a t =>
    rw [ended] at begins
    exact goesOn a t begins
  | error cause t =>
    rw [ended] at begins
    exact begins

/-- A sequence ends as its second part does from where the first part is known to have led. -/
theorem Ends.after {first : Action σ α} {next : α → Action σ β} {s t : σ} {a : α}
    {done : β → σ → Prop} {failed : Fault → σ → Prop} (answered : first s = .ok a t)
    (goesOn : (next a).Ends t done failed) : (first >>= next).Ends s done failed := by
  unfold Ends
  rw [bind_of_ok answered]
  exact goesOn

/-- What holds at the end may be weakened, for answers and for faults. There is one end, so only
the condition of the kind it is of is needed. -/
theorem Ends.mono {action : Action σ α} {s : σ} {done done' : α → σ → Prop}
    {failed failed' : Fault → σ → Prop} (ends : action.Ends s done failed)
    (answered : ∀ a t, done a t → done' a t)
    (faulted : ∀ cause t, failed cause t → failed' cause t) :
    action.Ends s done' failed' := by
  unfold Ends at ends ⊢
  cases ended : action s with
  | ok a t =>
    rw [ended] at ends
    exact answered a t ends
  | error cause t =>
    rw [ended] at ends
    exact faulted cause t ends

/-- Of an action known to have answered, the judgment gives what holds of the answer and of the
state reached. -/
theorem Ends.of_ok {action : Action σ α} {s t : σ} {a : α} {done : α → σ → Prop}
    {failed : Fault → σ → Prop} (ends : action.Ends s done failed) (ended : action s = .ok a t) :
    done a t := by
  unfold Ends at ends
  rwa [ended] at ends

/-- Of an action known to have faulted, the judgment gives what holds of the fault and of the state
left behind. -/
theorem Ends.of_error {action : Action σ α} {s t : σ} {cause : Fault} {done : α → σ → Prop}
    {failed : Fault → σ → Prop} (ends : action.Ends s done failed)
    (ended : action s = .error cause t) : failed cause t := by
  unfold Ends at ends
  rwa [ended] at ends

/-- An action leaves a part of the state as it was, whether it answers or faults. -/
def Keeps (part : σ → γ) (action : Action σ α) : Prop :=
  ∀ s, action.Ends s (fun _ t => part t = part s) (fun _ t => part t = part s)

variable {part : σ → γ}

/-- A sequence keeps what both of its parts keep: the second part starts from a state in which the
kept part is still that of the beginning, and equality is transitive. -/
theorem Keeps.bind {first : Action σ α} {next : α → Action σ β} (firstKeeps : Keeps part first)
    (nextKeeps : ∀ a, Keeps part (next a)) : Keeps part (first >>= next) := by
  intro s
  refine Ends.bind (firstKeeps s) fun a t same => ?_
  exact (nextKeeps a t).mono (fun _ _ later => later.trans same) (fun _ _ later => later.trans same)

/-- A context is added to the fault and not to the state, so it changes nothing about what is
kept. -/
theorem Keeps.during {action : Action σ α} (context : Context) (keeps : Keeps part action) :
    Keeps part (action.during context) := by
  intro s
  have before := keeps s
  unfold Ends at before ⊢
  unfold Action.during
  cases ended : action s <;> simpa only [ended] using before

/-- Answering alone does not touch the state. -/
theorem keeps_pure (a : α) : Keeps part (pure a) := fun _ => rfl

/-- Nor does faulting: no state is rolled back and none is written. -/
theorem keeps_throw (cause : Fault) : Keeps part (throw cause : Action σ α) := fun _ => rfl

/-- Nor does looking at the whole of it. -/
theorem keeps_get : Keeps part (get : Action σ σ) := fun _ => rfl

/-- A look leaves the whole state as it is, whether it answers or is refused. -/
theorem keeps_observe (look : σ → Answer α) : Keeps part (observe look) := by
  intro s
  unfold Ends observe
  cases look s <;> rfl

/-- A given answer is a look that does not even depend on the state. -/
theorem keeps_answer (given : Answer α) : Keeps part (answer given) := keeps_observe _

/-- An update keeps whatever it does not reach. -/
theorem keeps_modify {update : σ → σ} (same : ∀ s, part (update s) = part s) :
    Keeps part (modify update) := same

/-- The part is the same behind an action that has answered. -/
theorem Keeps.of_ok {action : Action σ α} (keeps : Keeps part action) {s t : σ} {a : α}
    (ended : action s = .ok a t) : part t = part s := (keeps s).of_ok ended

/-- A fault of the action leaves a part of the state as it was. -/
def Spares (part : σ → γ) (action : Action σ α) : Prop :=
  ∀ s, action.Ends s (fun _ _ => True) (fun _ t => part t = part s)

/-- What is always kept is kept behind a fault as well. -/
theorem Keeps.spares {action : Action σ α} (keeps : Keeps part action) : Spares part action :=
  fun s => (keeps s).mono (fun _ _ _ => trivial) fun _ _ same => same

/-- A fault in a sequence comes before anything in it has changed the part. -/
theorem Spares.bind {first : Action σ α} {next : α → Action σ β} (firstKeeps : Keeps part first)
    (nextSpares : ∀ a, Spares part (next a)) : Spares part (first >>= next) := by
  intro s
  refine Ends.bind (firstKeeps s) fun a t same => ?_
  exact (nextSpares a t).mono (fun _ _ done => done) fun _ _ spared => spared.trans same

/-- An action that never faults. -/
def Unfailing (action : Action σ α) : Prop :=
  ∀ s, action.Ends s (fun _ _ => True) (fun _ _ => False)

/-- Answering alone cannot fail. -/
theorem unfailing_pure (a : α) : Unfailing (pure a : Action σ α) := fun _ => trivial

/-- An update of the state cannot fail: whatever it writes, it answers. -/
theorem unfailing_modify (update : σ → σ) : Unfailing (modify update : Action σ PUnit) :=
  fun _ => trivial

/-- A sequence of two actions that never fault never faults. -/
theorem Unfailing.bind {first : Action σ α} {next : α → Action σ β} (begins : Unfailing first)
    (goesOn : ∀ a, Unfailing (next a)) : Unfailing (first >>= next) := fun s =>
  Ends.bind (begins s) fun a t _ => goesOn a t

/-- What never faults spares everything. -/
theorem Unfailing.spares {action : Action σ α} (unfailing : Unfailing action) :
    Spares part action := fun s =>
  (unfailing s).mono (fun _ _ done => done) fun _ _ impossible => impossible.elim

/-- What follows may change the part if it never faults. -/
theorem Spares.before {first : Action σ α} {next : α → Action σ β} (spares : Spares part first)
    (goesOn : ∀ a, Unfailing (next a)) : Spares part (first >>= next) := by
  intro s
  refine Ends.bind (spares s) fun a t _ => ?_
  exact (goesOn a t).mono (fun _ _ done => done) fun _ _ impossible => impossible.elim

/-- A context is added to the fault only, so the state behind the fault is the one that the action
has left. -/
theorem Spares.during {action : Action σ α} (context : Context) (spares : Spares part action) :
    Spares part (action.during context) := by
  intro s
  have before := spares s
  unfold Ends at before ⊢
  unfold Action.during
  cases ended : action s with
  | ok a t => trivial
  | error cause t => simpa only [ended] using before

/-- The part is the same behind a fault. -/
theorem Spares.of_error {action : Action σ α} (spares : Spares part action) {s t : σ}
    {cause : Fault} (ended : action s = .error cause t) : part t = part s :=
  (spares s).of_error ended

/-- What spares the whole state and cannot answer faults where it is. -/
theorem Spares.exists_error {action : Action σ α} {s : σ} (spares : Spares id action)
    (never : ∀ a t, action s ≠ .ok a t) : ∃ cause, action s = .error cause s := by
  cases ended : action s with
  | ok a t => exact absurd ended (never a t)
  | error cause t =>
    obtain rfl : t = s := spares.of_error ended
    exact ⟨cause, rfl⟩

/-- The part is the same behind a fault of an action that always keeps it. -/
theorem Keeps.of_error {action : Action σ α} (keeps : Keeps part action) {s t : σ}
    {cause : Fault} (ended : action s = .error cause t) : part t = part s :=
  (keeps s).of_error ended

/-- What holds before the action holds afterwards, whether it answers or faults. -/
def Maintains (holds : σ → Prop) (action : Action σ α) : Prop :=
  ∀ s, holds s → action.Ends s (fun _ t => holds t) (fun _ t => holds t)

variable {holds : σ → Prop}

/-- An invariant that both parts of a sequence maintain is maintained by the sequence: it holds in
the middle, whatever the first part has answered, and the second part goes on from there. -/
theorem Maintains.bind {first : Action σ α} {next : α → Action σ β}
    (begins : Maintains holds first) (goesOn : ∀ a, Maintains holds (next a)) :
    Maintains holds (first >>= next) := fun s now =>
  Ends.bind (begins s now) fun a t later => goesOn a t later

/-- What follows an answer that is known may use it. -/
theorem Maintains.afterAnswer {look : Answer α} {next : α → Action σ β}
    (goesOn : ∀ a, look = .ok a → Maintains holds (next a)) :
    Maintains holds (answer look >>= next) := by
  intro s now
  cases known : look with
  | ok a => exact goesOn a known s now
  | error cause => exact now

/-- What follows a look at the state may use that this is the state. -/
theorem Maintains.afterGet {next : σ → Action σ β}
    (goesOn : ∀ s, holds s → (next s).Ends s (fun _ t => holds t) (fun _ t => holds t)) :
    Maintains holds ((get : Action σ σ) >>= next) := fun s now => goesOn s now

/-- Answering alone maintains everything, since it does not touch the state. -/
theorem maintains_pure (a : α) : Maintains holds (pure a) := fun _ now => now

/-- What depends on a part alone is maintained by what keeps the part. -/
theorem Keeps.maintains {action : Action σ α} (keeps : Keeps part action)
    (depends : ∀ s t, part t = part s → holds s → holds t) : Maintains holds action := fun s now =>
  (keeps s).mono (fun _ t same => depends s t same now) fun _ t same => depends s t same now

/-- Whenever the action answers, it answers this. -/
def Answers (action : Action σ α) (a : α) : Prop := ∀ s b t, action s = .ok b t → b = a

/-- What a sequence answers is up to its last part. -/
theorem Answers.after {first : Action σ α} {next : α → Action σ β} {b : β}
    (later : ∀ a, Answers (next a) b) : Answers (first >>= next) b := by
  intro s c t ended
  obtain ⟨a, u, _, done⟩ := bind_eq_ok_iff.mp ended
  exact later a u c t done

/-- An action that only answers has one answer. -/
theorem answers_pure (a : α) : Answers (pure a : Action σ α) a := by
  rintro s b t ⟨⟩
  rfl

/-- What never answers may be said to answer anything. -/
theorem answers_throw (cause : Fault) (a : α) : Answers (throw cause : Action σ α) a := by
  rintro s b t ⟨⟩

end Action

end BytecodeMachine
