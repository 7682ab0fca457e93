import BytecodeMachine.Proofs.Machine.History
import BytecodeMachine.Proofs.Machine.Linkage
/-!
# Activations

A machine keeps no list of the functions that run; a history determines one. An entry opens
an activation and leaving closes the last one that was opened. An activation is its frame
together with what had been done before the frame was opened, so that the call it belongs
to can be found again.

Two conditions on histories say that a program treats its frames as they are meant. Frames
are opened at the start and behind calls, and nowhere else. And the linkage of an activation
is neither replaced nor removed by any turn but the one that leaves it. Nothing enforces
either: they are not properties of machines but of what has been run.
-/
namespace BytecodeMachine.Machine

variable {σ : Type}

/-- Whether a frame is about to be opened: at the start and behind a call. -/
def expectsEntry : List (Turn σ) → Bool
  | [] => true
  | last :: _ => last.instruction.isCall

/-- A turn that goes on executes its instruction with the next offset moved on. -/
def Turn.Executed [Host σ] (image : Image) (last : Turn σ) : Prop :=
  execute image last.instruction { last.before with next := last.behind } = .ok .next last.after

/-- A function that runs: its frame, and the history up to where its frame was opened. -/
structure Activation (σ : Type) where
  frame : Nat
  earlier : List (Turn σ)

/-- The activations that a turn does not close, of those that it finds. -/
def outlasting (instruction : Instruction) (found : List (Activation σ)) : List (Activation σ) :=
  if instruction = .leave then found.tail else found

/-- The activations that are open after a history, the running function's first. -/
def activations : List (Turn σ) → List (Activation σ)
  | [] => []
  | last :: earlier =>
    if last.instruction.isEntry then ⟨last.after.frame, earlier⟩ :: activations earlier
    else outlasting last.instruction (activations earlier)

/-- An entry opens an activation, with the history up to it. -/
theorem activations_of_entry {last : Turn σ} {past : List (Turn σ)}
    (opens : last.instruction.isEntry = true) :
    activations (last :: past) = ⟨last.after.frame, past⟩ :: activations past := if_pos opens

/-- Any other turn opens none, and leaves those that outlast it. -/
theorem activations_of_not_entry {last : Turn σ} {past : List (Turn σ)}
    (opens : last.instruction.isEntry = false) :
    activations (last :: past) = outlasting last.instruction (activations past) := by
  simp [activations, opens]

/-- Leaving closes the activation that was opened last. -/
theorem activations_of_leave {last : Turn σ} {past : List (Turn σ)}
    (leaves : last.instruction = .leave) :
    activations (last :: past) = (activations past).tail := by
  rw [activations_of_not_entry (by rw [leaves]; rfl), outlasting, if_pos leaves]

/-- All other instructions close none. -/
theorem outlasting_of_ne {instruction : Instruction} (stays : instruction ≠ .leave)
    (found : List (Activation σ)) : outlasting instruction found = found := if_neg stays

/-- A call opens no frame, it only leaves what the entry behind it needs. -/
theorem activations_of_call {last : Turn σ} {past : List (Turn σ)}
    (calls : last.instruction.isCall = true) : activations (last :: past) = activations past := by
  obtain ⟨before, instruction, behind, after⟩ := last
  cases instruction with
  | call address arguments => rfl
  | callClosure arguments => rfl
  | _ => cases calls

/-- The frames of the open activations. -/
def frames (past : List (Turn σ)) : List Nat := (activations past).map Activation.frame

/-- Frames are opened at the start and behind each call, and nowhere else. -/
def EntriesFollowCalls : List (Turn σ) → Prop
  | [] => True
  | last :: earlier => last.instruction.isEntry = expectsEntry earlier ∧ EntriesFollowCalls earlier

instance : (past : List (Turn σ)) → Decidable (EntriesFollowCalls past)
  | [] => .isTrue trivial
  | _ :: earlier =>
    have : Decidable (EntriesFollowCalls earlier) := instDecidableEntriesFollowCalls earlier
    inferInstanceAs (Decidable (_ ∧ EntriesFollowCalls earlier))

/-- The linkage at a frame is live in the one stack and has the same words in the other, as far
as it is live in the first. -/
def KeepsLinkage (s t : Stack) (frame : Nat) : Prop :=
  ∀ offset < 3, ∀ word, s.get (frame + offset) = .ok word → t.get (frame + offset) = .ok word

instance {given given' : Answer Value} :
    Decidable (∀ word, given = .ok word → given' = .ok word) :=
  match given, given' with
  | .error _, _ => .isTrue fun _ failed => by cases failed
  | .ok word, .error _ => .isFalse fun all => by cases all word rfl
  | .ok word, .ok word' => decidable_of_iff (word' = word) <| by
    constructor
    · rintro rfl _ found
      exact found
    · intro all
      exact Except.ok.inj (all word rfl)

instance (s t : Stack) (frame : Nat) : Decidable (KeepsLinkage s t frame) :=
  inferInstanceAs (Decidable (∀ offset < 3, ∀ word, s.get (frame + offset) = .ok word →
    t.get (frame + offset) = .ok word))

/-- No turn replaces or removes a word of the linkage of an activation that it does not close. -/
def LinkageKept : List (Turn σ) → Prop
  | [] => True
  | last :: earlier =>
    (∀ activation ∈ outlasting last.instruction (activations earlier),
      KeepsLinkage last.before.stack last.after.stack activation.frame) ∧ LinkageKept earlier

instance : (past : List (Turn σ)) → Decidable (LinkageKept past)
  | [] => .isTrue trivial
  | _ :: earlier =>
    have : Decidable (LinkageKept earlier) := instDecidableLinkageKept earlier
    inferInstanceAs (Decidable (_ ∧ LinkageKept earlier))

/-- From a frame, the saved frame pointers lead through these frames and end at `last`. -/
inductive Follows (stack : Stack) (last : Nat) : Nat → List Nat → Prop
  | done : Follows stack last last []
  | link {frame : Nat} {pointer : Int32} {rest : List Nat}
      (saved : stack.get frame = .ok (.scalar pointer)) (inside : 0 ≤ pointer)
      (further : Follows stack last pointer.toInt.toNat rest) :
      Follows stack last frame (frame :: rest)

/-- The word at an index is as it was in `first`, unless a store has changed it since. -/
def Undisturbed (first : Machine σ) (between : List (Turn σ)) (now : Machine σ) (index : Nat) :
    Prop :=
  now.stack.words[index]? = first.stack.words[index]? ∨
    ∃ turn ∈ between, turn.instruction.isStore ∧
      turn.after.stack.words[index]? ≠ turn.before.stack.words[index]?

/-- What leaving does that belongs to a call: the caller goes on behind the call, in its frame,
with the result in the place of the arguments. Nothing below them is touched by the return,
and nothing but stores has changed it since before the call. -/
structure Returned (call : Turn σ) (between : List (Turn σ)) (last : Turn σ) : Prop where
  frame : last.after.frame = call.before.frame
  depth : last.after.depth = call.before.depth
  next : last.after.next = call.behind
  dropped_le : call.instruction.dropped ≤ call.before.stack.size
  size : last.after.stack.size = call.before.stack.size - call.instruction.dropped + 1
  top : last.after.stack.top + 1 = call.before.stack.top + call.instruction.dropped
  result : ∃ word, last.before.stack.peek 0 = .ok word ∧ last.after.stack.peek 0 = .ok word
  below : ∀ index, call.before.stack.top + call.instruction.dropped ≤ index →
    last.after.stack.words[index]? = last.before.stack.words[index]? ∧
      Undisturbed call.before between last.after index

end BytecodeMachine.Machine
