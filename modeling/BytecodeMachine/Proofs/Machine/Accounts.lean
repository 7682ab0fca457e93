import BytecodeMachine.Proofs.Machine.Activations
/-!
# What the open activations account for

The invariant of histories with orderly frames. Every activation is tied to what the
machine was before the call it belongs to: its linkage says where the caller's frame is,
how many arguments there are and where the call was, and since that call nothing but
stores has changed the words below the arguments.

That the linkage of an activation can be read bounds the top of the stack. Whatever takes
words from the stack stays above it.
-/
namespace BytecodeMachine.Machine

variable {σ : Type} {capacity : Nat} {s t : Stack} {m n : Machine σ} {past : List (Turn σ)}
  {found outer : List (Activation σ)}

/-- The three words of the linkage at a frame. -/
structure Linked (stack : Stack) (frame : Nat) (pointer count address : Int32) : Prop where
  link : stack.get frame = .ok (.scalar pointer)
  argumentCount : stack.get (frame + 1) = .ok (.scalar count)
  returnAddress : stack.get (frame + 2) = .ok (.scalar address)

/-- Linkage that is kept says the same on the later stack, as each of its three words does. -/
theorem Linked.kept {frame : Nat} {pointer count address : Int32}
    (linked : Linked s frame pointer count address) (keeps : KeepsLinkage s t frame) :
    Linked t frame pointer count address :=
  ⟨keeps 0 (by omega) _ linked.link, keeps 1 (by omega) _ linked.argumentCount,
    keeps 2 (by omega) _ linked.returnAddress⟩

/-- Linkage that can be read is live, so the top of the stack is not behind it. -/
theorem Linked.top_le {frame : Nat} {pointer count address : Int32}
    (linked : Linked s frame pointer count address) : s.top ≤ frame :=
  (Stack.get_eq_ok_iff.mp linked.link).1

/-- The frame that is gone back to when the activations of a list are the ones left. -/
def resume (capacity : Nat) : List (Activation σ) → Nat
  | [] => capacity - 4
  | activation :: _ => activation.frame

/-- Since the call that an activation belongs to, nothing but stores has changed the words that
lie below the arguments. -/
def Settled (past : List (Turn σ)) (m : Machine σ) (activation : Activation σ) : Prop :=
  ∀ call older, activation.earlier = call :: older →
    ∃ between, past = between ++ call :: older ∧
      ∀ index, call.before.stack.top + call.instruction.dropped ≤ index →
        Undisturbed call.before between m index

/-- A function runs, and its activation is the one that was opened last. -/
structure Resting (capacity : Nat) (past : List (Turn σ)) (m : Machine σ) : Prop where
  frame : m.frame = resume capacity (activations past)
  depth : m.depth + 1 = (activations past).length
  settled : ∀ activation ∈ (activations past).head?, Settled past m activation

/-- How an activation was opened, and the linkage that it has since: by the entry at the start
or by an entry behind a call. The outer activations are those that were open at the call. -/
inductive Opened (capacity : Nat) (stack : Stack) :
    Activation σ → List (Activation σ) → Prop
  | bottom {frame : Nat} (place : frame + 5 = capacity)
      (linked : Linked stack frame (Int32.ofNat (capacity - 4)) 2 nowhere) :
      Opened capacity stack ⟨frame, []⟩ []
  | called {frame : Nat} {call : Turn σ} {older : List (Turn σ)}
      (calls : call.instruction.isCall = true) (rested : Resting capacity older call.before)
      (place : frame + 3 = call.before.stack.top) (inner : frame < call.before.frame)
      (enough : call.before.stack.top + call.instruction.dropped ≤ capacity)
      (size : call.before.stack.words.size = capacity)
      (droppedFits : call.instruction.dropped < 2147483648) (nextFits : call.behind < 2147483648)
      (linked : Linked stack frame (Int32.ofNat call.before.frame)
        (Int32.ofNat call.instruction.dropped) (Int32.ofNat call.behind)) :
      Opened capacity stack ⟨frame, call :: older⟩ (activations older)

/-- Every activation has its linkage, and the ones it was opened on below it. -/
def Accounted (capacity : Nat) (stack : Stack) : List (Activation σ) → Prop
  | [] => True
  | activation :: outer => Opened capacity stack activation outer ∧ Accounted capacity stack outer

/-- What a history with orderly frames makes true of the machine it leads to. -/
structure Disciplined (capacity : Nat) (past : List (Turn σ)) (m : Machine σ) : Prop where
  size : m.stack.words.size = capacity
  accounted : Accounted capacity m.stack (activations past)
  new : past = [] → m.stack.top + 4 = capacity ∧ m.frame = m.stack.top ∧ m.depth = 0 ∧
    m.stack.get m.stack.top = .ok (.scalar 2) ∧
    m.stack.get (m.stack.top + 1) = .ok (.scalar nowhere)
  called : ∀ call older, past = call :: older → call.instruction.isCall = true →
    Resting capacity older call.before ∧ call.before.stack.words.size = capacity ∧
      Called call.instruction.dropped { call.before with next := call.behind } m
  resting : expectsEntry past = false → Resting capacity past m

/-- How an activation was opened is a matter of the past, and the linkage it has since is kept. -/
theorem Opened.kept {activation : Activation σ} (opened : Opened capacity s activation outer)
    (keeps : KeepsLinkage s t activation.frame) : Opened capacity t activation outer := by
  cases opened with
  | bottom place linked => exact .bottom place (linked.kept keeps)
  | called calls rested place inner enough size droppedFits nextFits linked =>
    exact .called calls rested place inner enough size droppedFits nextFits (linked.kept keeps)

/-- The linkage of an activation can be read, so the top of the stack is not behind its frame. -/
theorem Opened.top_le {activation : Activation σ} (opened : Opened capacity s activation outer) :
    s.top ≤ activation.frame := by
  cases opened with
  | bottom _ linked => exact linked.top_le
  | called _ _ _ _ _ _ _ _ linked => exact linked.top_le

/-- A call's arguments end where the linkage begins. -/
theorem Opened.place {activation : Activation σ} {call : Turn σ} {older : List (Turn σ)}
    (opened : Opened capacity s activation outer) (begun : activation.earlier = call :: older) :
    activation.frame + 3 = call.before.stack.top := by
  cases opened with
  | bottom _ _ => cases begun
  | called _ _ place _ _ _ _ _ _ =>
    cases begun
    exact place

/-- The first word of the linkage is the frame to go back to: the caller's, or for the bottom
activation the one that a new machine begins with. -/
theorem Opened.link {activation : Activation σ} (opened : Opened capacity s activation outer) :
    s.get activation.frame = .ok (.scalar (Int32.ofNat (resume capacity outer))) := by
  cases opened with
  | bottom _ linked => exact linked.link
  | called _ rested _ _ _ _ _ _ linked =>
    rw [← rested.frame]
    exact linked.link

/-- An activation lies above the one it was opened on. The first one is opened on the words that a
machine starts with, and every other one by a call, which stays above the frame of the caller. -/
theorem Opened.inner {activation : Activation σ} (opened : Opened capacity s activation outer) :
    activation.frame < resume capacity outer := by
  cases opened with
  | bottom place _ =>
    simp only [resume]
    omega
  | called _ rested _ inner _ _ _ _ _ =>
    rw [← rested.frame]
    exact inner

/-- If the linkage of each open activation is kept, then all of them are still accounted for, by
induction on the activations. -/
theorem Accounted.kept (accounted : Accounted capacity s found)
    (keeps : ∀ activation ∈ found, KeepsLinkage s t activation.frame) :
    Accounted capacity t found := by
  induction found with
  | nil => trivial
  | cons activation outer later =>
    refine ⟨accounted.1.kept (keeps _ List.mem_cons_self), later accounted.2 ?_⟩
    intro other member
    exact keeps other (List.mem_cons_of_mem _ member)

/-- Activations that are open can be read, so the stack is live at the frame gone back to. -/
theorem Accounted.top_le (accounted : Accounted capacity s found) (some : found ≠ []) :
    s.top ≤ resume capacity found := by
  cases found with
  | nil => exact absurd rfl some
  | cons activation outer => exact accounted.1.top_le

/-- The activations that are left after a turn are accounted for as they were before it. Leaving
takes the first of them away. -/
theorem Accounted.of_outlasting {instruction : Instruction}
    (accounted : Accounted capacity s found) :
    Accounted capacity s (outlasting instruction found) := by
  unfold outlasting
  split
  · cases found with
    | nil => trivial
    | cons activation outer => exact accounted.2
  · exact accounted

/-- Frame pointers are indices of the stack, above its bottom frame. -/
theorem Accounted.resume_le (accounted : Accounted capacity s found) :
    resume capacity found ≤ capacity - 4 := by
  induction found with
  | nil => exact Nat.le_refl _
  | cons activation outer later =>
    exact Nat.le_trans (Nat.le_of_lt accounted.1.inner) (later accounted.2)

/-- A frame pointer is kept in a word without loss. -/
theorem Accounted.resume_lt (accounted : Accounted capacity s found)
    (bounded : capacity ≤ greatestCapacity) :
    resume capacity found < 2147483648 := by
  have bound := accounted.resume_le
  unfold greatestCapacity at bounded
  omega

/-- A word that is the same in a later machine has been disturbed no more than before. -/
theorem Undisturbed.same {first : Machine σ} {between : List (Turn σ)} {index : Nat}
    (before : Undisturbed first between m index)
    (same : n.stack.words[index]? = m.stack.words[index]?) :
    Undisturbed first between n index := by
  unfold Undisturbed
  rwa [same]

/-- From one machine to a second and on to a third, a word is undisturbed if it is on both ways. If
it has changed on either, there is a store to show for it. -/
theorem Undisturbed.append {first second : Machine σ} {between later : List (Turn σ)} {index : Nat}
    (begins : Undisturbed first between second index)
    (goesOn : Undisturbed second later m index) :
    Undisturbed first (later ++ between) m index := by
  rcases goesOn with same | ⟨turn, member, stores, changed⟩
  · rcases begins with same' | ⟨turn, member, stores, changed⟩
    · exact .inl (same.trans same')
    · exact .inr ⟨turn, List.mem_append_right _ member, stores, changed⟩
  · exact .inr ⟨turn, List.mem_append_left _ member, stores, changed⟩

/-- Among more turns there are still the stores of the fewer ones. -/
theorem Undisturbed.mono {first : Machine σ} {between later : List (Turn σ)} {index : Nat}
    (undisturbed : Undisturbed first between m index) (more : between ⊆ later) :
    Undisturbed first later m index := by
  rcases undisturbed with same | ⟨turn, member, stores, changed⟩
  · exact .inl same
  · exact .inr ⟨turn, more member, stores, changed⟩

/-- One more turn that is a store, or keeps the word. If it has changed the word then it is the
store to be named; otherwise the word is as before, or an earlier store is. -/
theorem Undisturbed.turn {first : Machine σ} {between : List (Turn σ)} {index : Nat}
    {last : Turn σ} (before : Undisturbed first between last.before index)
    (kept : last.instruction.isStore = false →
      last.after.stack.words[index]? = last.before.stack.words[index]?) :
    Undisturbed first (last :: between) last.after index := by
  rcases before with same | ⟨turn, member, stores, changed⟩
  · by_cases same' : last.after.stack.words[index]? = last.before.stack.words[index]?
    · exact .inl (same'.trans same)
    · refine .inr ⟨last, List.mem_cons_self, ?_, same'⟩
      cases stores : last.instruction.isStore with
      | false => exact absurd (kept stores) same'
      | true => rfl
  · exact .inr ⟨turn, List.mem_cons_of_mem _ member, stores, changed⟩

/-- Opening the frame at the start makes the bottom activation, which returns nowhere. The entry
pushes the last word of its linkage, above the two that a new stack begins with. -/
theorem Opened.of_start {locals behind : Nat} (place : m.stack.top + 4 = capacity)
    (frame : m.frame = m.stack.top) (argumentCount : m.stack.get m.stack.top = .ok (.scalar 2))
    (returnAddress : m.stack.get (m.stack.top + 1) = .ok (.scalar nowhere))
    (entered : Entered locals { m with next := behind } n) :
    Opened (σ := σ) capacity n.stack ⟨n.frame, []⟩ [] := by
  have above : n.frame + 1 = m.stack.top := entered.frame
  have trade : m.stack.Trade 0 (locals + 1) n.stack := entered.trade
  have link : n.stack.get n.frame = .ok (.scalar (Int32.ofNat (capacity - 4))) := by
    rw [show capacity - 4 = m.frame by omega]
    exact entered.link
  refine .bottom (by omega) ⟨link, ?_, ?_⟩
  · rw [trade.get (by omega), above]
    exact argumentCount
  · rw [trade.get (by omega), show n.frame + 2 = m.stack.top + 1 by omega]
    exact returnAddress

/-- Opening a frame behind a call puts the caller's frame pointer on what the call has left. The
caller's linkage is live, so the new frame lies above the caller's. -/
theorem Opened.of_call {locals behind : Nat} {call : Turn σ} {older : List (Turn σ)}
    (calls : call.instruction.isCall = true) (rested : Resting capacity older call.before)
    (accounted : Accounted capacity m.stack (activations older))
    (size : call.before.stack.words.size = capacity)
    (called : Called call.instruction.dropped { call.before with next := call.behind } m)
    (entered : Entered locals { m with next := behind } n) :
    Opened capacity n.stack ⟨n.frame, call :: older⟩ (activations older) := by
  have some : activations older ≠ [] := by
    intro none
    have depth := rested.depth
    rw [none] at depth
    cases depth
  have live := accounted.top_le some
  rw [← rested.frame] at live
  have above : n.frame + 1 = m.stack.top := entered.frame
  have trade : m.stack.Trade 0 (locals + 1) n.stack := entered.trade
  have link : n.stack.get n.frame = .ok (.scalar (Int32.ofNat call.before.frame)) := by
    rw [show call.before.frame = m.frame from called.frame.symm]
    exact entered.link
  have below := called.trade.top
  have enough := called.trade.enough
  dsimp only at below enough
  refine .called calls rested (by omega) (by omega) (by omega) size called.dropped_fits
    called.next_fits ⟨link, ?_, ?_⟩
  · rw [trade.get (by omega), above]
    exact called.argumentCount
  · rw [trade.get (by omega), show n.frame + 2 = m.stack.top + 1 by omega]
    exact called.returnAddress

/-- A new machine has no activation, and its first frame is still to be opened. -/
theorem disciplined_of_fresh {image : Image} {host : σ} (fresh : Fresh image capacity host m) :
    Disciplined capacity [] m where
  size := fresh.size
  accounted := trivial
  new _ := ⟨fresh.top, fresh.frame, fresh.depth, fresh.argumentCount, fresh.returnAddress⟩
  called _ _ none := by cases none
  resting expected := by cases expected

end BytecodeMachine.Machine
