import BytecodeMachine.Proofs.Action
/-!
# Actions side by side

Two actions on different states, side by side, from states that are related. The one simulates
the other if it answers the same whenever the other answers, and leaves the states related.
Faults are compared only if the comparison is `strict`: then it also faults alike whenever the
other faults, and the states that the faults leave are related as well.

Both readings go through sequences by the same laws. The strict one compares two runs to their
ends, whatever these are; the other one says that what works goes on to work.
-/
namespace BytecodeMachine

variable {strict : Prop} {α β : Type}

/-- The second answer is the first one, if that is an answer or the comparison is strict. -/
def Answer.Repeats (strict : Prop) (first second : Answer α) : Prop :=
  (strict ∨ ∃ a, first = .ok a) → second = first

namespace Answer

variable {first second : Answer α}

/-- Every question repeats itself. -/
theorem repeats_refl (given : Answer α) : Repeats strict given given := fun _ => rfl

/-- What the first question answers the second one answers, however faults are compared. -/
theorem Repeats.of_ok (repeats : Repeats strict first second) {a : α} (answered : first = .ok a) :
    second = .ok a := (repeats (.inr ⟨a, answered⟩)).trans answered

/-- If faults are compared as well, the two questions are answered the same in any case. -/
theorem Repeats.of_strict (repeats : Repeats strict first second) (full : strict) :
    second = first := repeats (.inl full)

/-- Two computations in two parts are compared part by part. If the first parts answer, they answer
the same, and the second parts are compared at that answer; if the first part faults, only the
strict comparison has anything to say, and it carries the fault over. -/
theorem Repeats.bind {next next' : α → Answer β} (begins : Repeats strict first second)
    (goesOn : ∀ a, Repeats strict (next a) (next' a)) :
    Repeats strict (first >>= next) (second >>= next') := by
  intro compared
  cases known : first with
  | ok a =>
    rw [begins.of_ok known]
    refine goesOn a (compared.imp_right ?_)
    rw [known]
    exact fun answered => answered
  | error cause =>
    obtain full | ⟨b, answered⟩ := compared
    · rw [begins.of_strict full, known]
      rfl
    · rw [known] at answered
      cases answered

/-- A context is added to both faults alike, and an answer is none the worse for it. -/
theorem Repeats.during (context : Context) (repeats : Repeats strict first second) :
    Repeats strict (Answer.during context first) (Answer.during context second) := by
  intro compared
  rw [repeats]
  refine compared.imp_right ?_
  rintro ⟨a, answered⟩
  exact ⟨a, during_eq_ok_iff.mp answered⟩

end Answer

namespace Action

variable {σ τ : Type} {R : σ → τ → Prop} {s : σ} {t : τ}

/-- From `s` and `t` the second action ends as the first one does: with the same answer if that
answers and, in a strict comparison, with the same fault if it faults. The states are related
afterwards. -/
def Tracks (strict : Prop) (R : σ → τ → Prop) (first : Action σ α) (second : Action τ α) (s : σ)
    (t : τ) : Prop :=
  first.Ends s (fun a s' => ∃ t', second t = .ok a t' ∧ R s' t')
    fun cause s' => strict → ∃ t', second t = .error cause t' ∧ R s' t'

/-- The second action tracks the first one from all states that are related. -/
def Simulates (strict : Prop) (R : σ → τ → Prop) (first : Action σ α) (second : Action τ α) :
    Prop := ∀ s t, R s t → Tracks strict R first second s t

variable {first : Action σ α} {second : Action τ α}

/-- Where the first action answers the second one gives the same answer, and the states reached are
related. -/
theorem Tracks.of_ok (tracks : Tracks strict R first second s t) {a : α} {s' : σ}
    (answered : first s = .ok a s') : ∃ t', second t = .ok a t' ∧ R s' t' :=
  Ends.of_ok tracks answered

/-- If faults are compared, the second action faults as the first one does, and the states left
behind are related. -/
theorem Tracks.of_error (tracks : Tracks strict R first second s t) (full : strict)
    {cause : Fault} {s' : σ} (faulted : first s = .error cause s') :
    ∃ t', second t = .error cause t' ∧ R s' t' := Ends.of_error tracks faulted full

/-- Two actions that have both answered, and the same, track one another if the states they have
reached are related. -/
theorem tracks_of_ok {a : α} {s' : σ} {t' : τ} (answered : first s = .ok a s')
    (answered' : second t = .ok a t') (related : R s' t') : Tracks strict R first second s t := by
  unfold Tracks Ends
  rw [answered]
  exact ⟨t', answered', related⟩

/-- So do two actions that have both faulted for the same reason, if the states left behind are
related. -/
theorem tracks_of_error {cause : Fault} {s' : σ} {t' : τ} (faulted : first s = .error cause s')
    (faulted' : second t = .error cause t') (related : R s' t') :
    Tracks strict R first second s t := by
  unfold Tracks Ends
  rw [faulted]
  exact fun _ => ⟨t', faulted', related⟩

/-- Sequences track one another if their first parts do and their second parts do from any related
states. A fault of the first part is one of the whole sequence on either side, which is why the
middle condition carries it as a fault of the second sequence already. -/
theorem Tracks.bind {next : α → Action σ β} {next' : α → Action τ β}
    (begins : Tracks strict R first second s t)
    (goesOn : ∀ a s' t', R s' t' → Tracks strict R (next a) (next' a) s' t') :
    Tracks strict R (first >>= next) (second >>= next') s t := by
  have middle : first.Ends s (fun a s' => ∃ t', second t = .ok a t' ∧ R s' t')
      fun cause s' => strict → ∃ t', (second >>= next') t = .error cause t' ∧ R s' t' := by
    apply begins.mono (fun _ _ done => done)
    intro cause s' faulted full
    obtain ⟨t', done, related⟩ := faulted full
    exact ⟨t', bind_eq_error_iff.mpr (.inl done), related⟩
  refine middle.bind ?_
  rintro a s' ⟨t', done, related⟩
  apply (goesOn a s' t' related).mono
  · rintro b s'' ⟨t'', later, last⟩
    exact ⟨t'', bind_eq_ok_iff.mpr ⟨a, t', done, later⟩, last⟩
  · intro cause s'' faulted full
    obtain ⟨t'', later, last⟩ := faulted full
    exact ⟨t'', bind_eq_error_iff.mpr (.inr ⟨a, t', done, later⟩), last⟩

/-- What starts with a look at the states goes on from where these are. If the first look is
answered then so is the second one, alike; a fault is followed only where faults are. -/
theorem Tracks.observe_bind {look : σ → Answer α} {look' : τ → Answer α}
    {next : α → Action σ β} {next' : α → Action τ β} (related : R s t)
    (repeats : Answer.Repeats strict (look s) (look' t))
    (goesOn : ∀ a, look s = .ok a → Tracks strict R (next a) (next' a) s t) :
    Tracks strict R (observe look >>= next) (observe look' >>= next') s t := by
  unfold Tracks Ends
  simp only [Bind.bind, EStateM.bind, observe]
  cases known : look s with
  | ok a =>
    rw [repeats.of_ok known]
    exact goesOn a known
  | error cause =>
    intro full
    rw [repeats.of_strict full, known]
    exact ⟨t, rfl, related⟩

/-- How an action on a part of the state ends, with the part put back into the whole. -/
def putBack {σ' : Type} (put : σ → σ') :
    EStateM.Result Fault σ α → EStateM.Result Fault σ' α
  | .ok a part => .ok a (put part)
  | .error cause part => .error cause (put part)

/-- An action on a part of the state tracks another one as what is done to the parts does. Both
ends are put back into the whole, a fault just as an answer, and related parts make related
wholes. -/
theorem Tracks.within {σ' τ' : Type} {R' : σ' → τ' → Prop} {whole : Action σ' α}
    {whole' : Action τ' α} {s' : σ'} {t' : τ'} {put : σ → σ'} {put' : τ → τ'}
    (tracks : Tracks strict R first second s t) (acts : whole s' = putBack put (first s))
    (acts' : whole' t' = putBack put' (second t))
    (kept : ∀ part part', R part part' → R' (put part) (put' part')) :
    Tracks strict R' whole whole' s' t' := by
  unfold Tracks Ends at tracks ⊢
  rw [acts, acts']
  cases ended : first s with
  | ok a part =>
    rw [ended] at tracks
    obtain ⟨part', done, related⟩ := tracks
    exact ⟨put' part', by rw [done]; rfl, kept part part' related⟩
  | error cause part =>
    rw [ended] at tracks
    intro full
    obtain ⟨part', done, related⟩ := tracks full
    exact ⟨put' part', by rw [done]; rfl, kept part part' related⟩

/-- Simulation goes through sequences: the first parts lead from related states to related states,
and so the second parts can start there. -/
theorem Simulates.bind {next : α → Action σ β} {next' : α → Action τ β}
    (begins : Simulates strict R first second)
    (goesOn : ∀ a, Simulates strict R (next a) (next' a)) :
    Simulates strict R (first >>= next) (second >>= next') := fun s t related =>
  (begins s t related).bind fun a s' t' later => goesOn a s' t' later

/-- Giving the same answer leaves both states, and so their relation, as they are. -/
theorem simulates_pure (a : α) : Simulates strict R (pure a) (pure a) :=
  fun _ t related => ⟨t, rfl, related⟩

/-- So does faulting for the same reason. -/
theorem simulates_throw (cause : Fault) :
    Simulates strict R (throw cause : Action σ α) (throw cause) :=
  fun _ t related _ => ⟨t, rfl, related⟩

/-- Looks simulate one another if they are answered alike in related states: neither changes its
state. -/
theorem simulates_observe {look : σ → Answer α} {look' : τ → Answer α}
    (repeats : ∀ s t, R s t → Answer.Repeats strict (look s) (look' t)) :
    Simulates strict R (observe look) (observe look') := by
  intro s t related
  unfold Tracks Ends observe
  have same := repeats s t related
  cases known : look s with
  | ok a =>
    rw [same.of_ok known]
    exact ⟨t, rfl, related⟩
  | error cause =>
    intro full
    rw [same.of_strict full, known]
    exact ⟨t, rfl, related⟩

/-- Given answers simulate one another if the one repeats the other. -/
theorem simulates_answer {given given' : Answer α} (repeats : Answer.Repeats strict given given') :
    Simulates strict R (answer given) (answer given') := simulates_observe fun _ _ _ => repeats

/-- What follows a look at the whole state may depend on what related states have in common. -/
theorem Simulates.afterGet {next : σ → Action σ β} {next' : τ → Action τ β}
    (goesOn : ∀ s t, R s t → Simulates strict R (next s) (next' t)) :
    Simulates strict R ((get : Action σ σ) >>= next) ((get : Action τ τ) >>= next') :=
  fun s t related => goesOn s t related s t related

/-- Updates simulate one another if they lead from related states to related states; they never
fault. -/
theorem simulates_modify {update : σ → σ} {update' : τ → τ}
    (related : ∀ s t, R s t → R (update s) (update' t)) :
    Simulates strict R (modify update : Action σ PUnit) (modify update') :=
  fun s t now => ⟨update' t, rfl, related s t now⟩

/-- A context wraps the faults of both sides alike, so it preserves simulation. The case of an
answer does not mention it, and the case of a fault rewrites it on both sides. -/
theorem Simulates.during (context : Context) (simulates : Simulates strict R first second) :
    Simulates strict R (first.during context) (second.during context) := by
  intro s t related
  have before := simulates s t related
  unfold Tracks Ends at before ⊢
  unfold Action.during
  cases ended : first s with
  | ok a s' =>
    rw [ended] at before
    obtain ⟨t', done, later⟩ := before
    exact ⟨t', by rw [done], later⟩
  | error cause s' =>
    rw [ended] at before
    intro full
    obtain ⟨t', done, later⟩ := before full
    exact ⟨t', by rw [done], later⟩

/-- An action tracks itself from the same state. -/
theorem simulates_eq (action : Action σ α) : Simulates strict Eq action action := by
  rintro s _ rfl
  unfold Tracks Ends
  cases ended : action s with
  | ok a s' => exact ⟨s', rfl, rfl⟩
  | error cause s' => exact fun _ => ⟨s', rfl, rfl⟩

end Action

end BytecodeMachine
