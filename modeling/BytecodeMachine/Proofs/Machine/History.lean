import BytecodeMachine.Machine.Run
import BytecodeMachine.Proofs.Machine.Reach
/-!
# Histories

What a run has done so far, as the list of its turns with the last one first. A history
is finite and starts with a new machine; the states in it are those in which the run
goes on, so neither a halt nor a fault is a turn. The beginning of a history is a history.
-/
namespace BytecodeMachine.Machine

/-- One turn: the machine before it, the instruction that was read with the offset behind it,
and the machine afterwards. -/
structure Turn (σ : Type) where
  before : Machine σ
  instruction : Instruction
  behind : Nat
  after : Machine σ

variable {σ : Type} [Host σ] {image : Image} {capacity : Nat} {host : σ} {m n : Machine σ}

/-- The histories of runs that start with a new machine, and the machines they lead to. -/
inductive History (image : Image) (capacity : Nat) (host : σ) : List (Turn σ) → Machine σ → Prop
  | start {allocator : Allocator} {m : Machine σ}
      (made : (Machine.start image capacity allocator host).2 = .ok m) :
      History image capacity host [] m
  | turn {past : List (Turn σ)} {m n : Machine σ} {instruction : Instruction} {behind : Nat}
      (earlier : History image capacity host past m)
      (fetched : fetch image m.next = .ok (instruction, behind))
      (advanced : advance image m = .ok .next n) :
      History image capacity host (⟨m, instruction, behind, n⟩ :: past) n

/-- A history leads to a state that the machine comes to. -/
theorem History.reachable {past : List (Turn σ)} (history : History image capacity host past m) :
    Reachable image capacity host m := by
  induction history with
  | start made => exact .start made
  | turn _ _ advanced before => exact .turn before advanced

/-- The last turn of a history is a turn from a state that the machine comes to. -/
theorem History.last {past : List (Turn σ)} {turn : Turn σ}
    (history : History image capacity host (turn :: past) m) :
    Reachable image capacity host turn.before ∧
      fetch image turn.before.next = .ok (turn.instruction, turn.behind) ∧
      advance image turn.before = .ok .next turn.after := by
  cases history with
  | turn earlier fetched advanced => exact ⟨earlier.reachable, fetched, advanced⟩

/-- A turn starts where the one before it has led. -/
theorem History.consecutive {past : List (Turn σ)} {first second : Turn σ}
    (history : History image capacity host (second :: first :: past) m) :
    History image capacity host (first :: past) second.before ∧ first.after = second.before := by
  cases history with
  | turn earlier fetched advanced =>
    refine ⟨earlier, ?_⟩
    cases earlier with
    | turn _ _ _ => rfl

/-- A machine advances by executing what it has read, with the next offset moved on. It does so
inside the code only, and a fault of the instruction is never an advance. -/
theorem advance_eq_ok_iff {flow : Flow} :
    advance image m = .ok flow n ↔
      ∃ instruction behind, m.next < image.code.size ∧
        fetch image m.next = .ok (instruction, behind) ∧
        execute image instruction { m with next := behind } = .ok flow n := by
  unfold advance
  by_cases atEnd : image.code.size ≤ m.next
  · simp only [atEnd, if_true, reduceCtorEq, false_iff]
    rintro ⟨_, _, inside, _⟩
    omega
  · have inside : m.next < image.code.size := Nat.lt_of_not_le atEnd
    simp only [atEnd, if_false]
    cases fetched : fetch image m.next with
    | error cause => simp
    | ok found =>
      obtain ⟨instruction, behind⟩ := found
      simp only [turn]
      cases done : execute image instruction { m with next := behind } with
      | ok flow' n' =>
        constructor
        · rintro ⟨⟩
          exact ⟨instruction, behind, inside, rfl, done⟩
        · rintro ⟨_, _, _, ⟨⟩, same⟩
          exact done.symm.trans same
      | error cause n' =>
        simp only [reduceCtorEq, Except.ok.injEq, Prod.mk.injEq, false_iff]
        rintro ⟨_, _, _, ⟨rfl, rfl⟩, same⟩
        rw [done] at same
        cases same

/-- In a turn the instruction that was read has been executed. -/
theorem executed_of_advance {instruction : Instruction} {behind : Nat} {flow : Flow}
    (fetched : fetch image m.next = .ok (instruction, behind))
    (advanced : advance image m = .ok flow n) :
    execute image instruction { m with next := behind } = .ok flow n := by
  obtain ⟨_, _, _, found, executed⟩ := advance_eq_ok_iff.mp advanced
  obtain ⟨rfl, rfl⟩ : _ = instruction ∧ _ = behind := by simpa [fetched] using found.symm
  exact executed

/-- Where nothing can be read the machine faults and stays as it is. -/
theorem advance_of_unread {cause : Fault} (unread : fetch image m.next = .error cause) :
    ∃ reported, advance image m = .error reported m := by
  unfold advance
  split
  · exact ⟨_, rfl⟩
  · rw [unread]
    exact ⟨_, rfl⟩

/-- A machine that cannot execute what it has read faults, and is where the instruction left it. -/
theorem advance_of_fault {instruction : Instruction} {behind : Nat} {cause : Fault}
    (inside : m.next < image.code.size) (fetched : fetch image m.next = .ok (instruction, behind))
    (failed : execute image instruction { m with next := behind } = .error cause n) :
    ∃ reported, advance image m = .error reported n := by
  unfold advance
  simp only [Nat.not_le.mpr inside, if_false, fetched, turn, failed]
  exact ⟨_, rfl⟩

/-- The fault of a turn in which an instruction was read is a fault of the instruction. The turn
puts its context around it and leaves the machine that the instruction has left. -/
theorem executed_of_fault {instruction : Instruction} {behind : Nat} {cause : Fault}
    (inside : m.next < image.code.size) (fetched : fetch image m.next = .ok (instruction, behind))
    (faulted : advance image m = .error cause n) :
    ∃ inner, execute image instruction { m with next := behind } = .error inner n := by
  unfold advance at faulted
  simp only [Nat.not_le.mpr inside, if_false, fetched, turn] at faulted
  split at faulted
  · cases faulted
  · next inner _ failed =>
    cases faulted
    exact ⟨inner, failed⟩

/-- A run is ended by leaving or by a stop; everything else goes on. The cases are the
instructions, which all end by going on, except for two that always fault. -/
theorem execute_answers_next {instruction : Instruction} (leaves : instruction ≠ .leave)
    (stops : instruction ≠ .stop) :
    Action.Answers (execute (σ := σ) image instruction) .next := by
  cases instruction with
  | leave => exact absurd rfl leaves
  | stop => exact absurd rfl stops
  | ret => exact Action.answers_throw _ _
  | failure line column => exact Action.answers_throw _ _
  | _ =>
    repeat' refine Action.Answers.after fun _ => ?_
    exact Action.answers_pure _

/-- A new machine: a frame at the bottom of the stack that returns nowhere, on zeros. -/
structure Fresh (image : Image) (capacity : Nat) (host : σ) (m : Machine σ) : Prop where
  size : m.stack.words.size = capacity
  top : m.stack.top + 4 = capacity
  words : ∀ value ∈ m.stack.words, value = .scalar 0 ∨ value = .scalar nowhere ∨ value = .scalar 2
  argumentCount : m.stack.get m.stack.top = .ok (.scalar 2)
  returnAddress : m.stack.get (m.stack.top + 1) = .ok (.scalar nowhere)
  globals : m.globals = Array.replicate image.globals Value.zero
  host : m.host = host
  frame : m.frame = m.stack.top
  next : m.next = 0
  depth : m.depth = 0

/-- What a new stack holds: two zeros as arguments, the return address that ends the run, and the
number of arguments, pushed in this order. With the frame pointer that an entry adds they are a
linkage to leave by. -/
theorem openBottom_ok {s t : Stack} {a : Unit} (opened : openBottom s = .ok a t) :
    t.top + 4 = s.top ∧
      t.words = (((s.words.setIfInBounds (t.top + 3) Value.zero).setIfInBounds (t.top + 2)
        Value.zero).setIfInBounds (t.top + 1) (.scalar nowhere)).setIfInBounds t.top
          (.scalar 2) := by
  simp only [openBottom, Action.bind_eq_ok_iff, Stack.push_eq_ok_iff] at opened
  obtain ⟨_, s₁, ⟨top₁, words₁⟩, _, s₂, ⟨top₂, words₂⟩, _, s₃, ⟨top₃, words₃⟩, top₄, words₄⟩ :=
    opened
  have third : s₃.top = t.top + 1 := by omega
  have second : s₂.top = t.top + 2 := by omega
  have first : s₁.top = t.top + 3 := by omega
  refine ⟨by omega, ?_⟩
  rw [words₄, words₃, words₂, words₁, third, second, first]

section Start

variable {allocator : Allocator}

omit [Host σ] in
/-- The allocator decides whether a machine is made, and it is asked for the stack and for the
globals. What the machine is then does not depend on it: its stack is an empty one on which the
frame at the bottom has been opened, and its globals are zero. -/
theorem ofHost_eq_ok_iff :
    ofHost image capacity allocator host = .ok m ↔
      allocator.HasRoom capacity .stack ∧ allocator.HasRoom image.globals .globals ∧
        ∃ stack, openBottom (Stack.empty capacity) = .ok () stack ∧
          (⟨stack, Array.replicate image.globals Value.zero, host, stack.top, 0, none, 0⟩ :
            Machine σ) = m := by
  simp only [ofHost, Answer.bind_eq_ok_iff, Stack.ofCapacity_eq_ok_iff, zeroWords_eq_ok_iff]
  constructor
  · rintro ⟨_, ⟨room, rfl⟩, _, ⟨room', rfl⟩, made⟩
    cases opened : openBottom (Stack.empty capacity) with
    | error cause stack =>
      rw [opened] at made
      cases made
    | ok a stack =>
      rw [opened] at made
      cases made
      exact ⟨room, room', stack, rfl, rfl⟩
  · rintro ⟨room, room', stack, opened, rfl⟩
    refine ⟨_, ⟨room, rfl⟩, _, ⟨room', rfl⟩, ?_⟩
    rw [opened]
    rfl

omit [Host σ] in
/-- Once the bottom frame fits on the stack, a machine is refused only where its words are. The two
areas are asked for one after the other, and there is nothing else to fail. -/
theorem ofHost_error {stack : Stack} {cause : Fault}
    (opened : openBottom (Stack.empty capacity) = .ok () stack)
    (refused : ofHost image capacity allocator host = .error cause) : cause.IsAllocation := by
  simp only [ofHost, bind, Except.bind] at refused
  cases made : Stack.ofCapacity capacity allocator with
  | error _ =>
    rw [made] at refused
    cases refused
    exact Stack.ofCapacity_error made
  | ok empty =>
    obtain ⟨_, rfl⟩ := Stack.ofCapacity_eq_ok_iff.mp made
    cases zeroed : zeroWords allocator image.globals .globals with
    | error _ =>
      rw [made, zeroed] at refused
      cases refused
      exact zeroWords_error zeroed
    | ok globals =>
      rw [made, zeroed] at refused
      dsimp only at refused
      rw [opened] at refused
      cases refused

omit [Host σ] in
/-- A machine that is made is new: the four pushes that open its first frame are read off the
words they have replaced, and every other word is still zero. -/
theorem ofHost_fresh (made : ofHost image capacity allocator host = .ok m) :
    Fresh image capacity host m := by
  obtain ⟨_, _, stack, opened, rfl⟩ := ofHost_eq_ok_iff.mp made
  obtain ⟨top, words⟩ := openBottom_ok opened
  simp only [Stack.empty] at top words
  have returned : stack.words[stack.top + 1]? = some (.scalar nowhere) := by
    rw [words, Array.getElem?_setIfInBounds_ne (by omega),
      Array.getElem?_setIfInBounds_self_of_lt]
    simp only [Array.size_setIfInBounds, Array.size_replicate]
    omega
  have counted : stack.words[stack.top]? = some (.scalar 2) := by
    rw [words, Array.getElem?_setIfInBounds_self_of_lt]
    simp only [Array.size_setIfInBounds, Array.size_replicate]
    omega
  refine ⟨by simp [words], top, ?_, Stack.get_eq_ok_iff.mpr ⟨Nat.le_refl _, counted⟩,
    Stack.get_eq_ok_iff.mpr ⟨Nat.le_succ _, returned⟩, rfl, rfl, rfl, rfl, rfl⟩
  intro value member
  dsimp only at member
  rw [words] at member
  rcases Array.mem_or_eq_of_mem_setIfInBounds member with member | rfl
  · rcases Array.mem_or_eq_of_mem_setIfInBounds member with member | rfl
    · rcases Array.mem_or_eq_of_mem_setIfInBounds member with member | rfl
      · rcases Array.mem_or_eq_of_mem_setIfInBounds member with member | rfl
        · exact .inl (Array.mem_replicate.mp member).2
        · exact .inl rfl
      · exact .inl rfl
    · exact .inr (.inl rfl)
  · exact .inr (.inr rfl)

/-- A machine is made if the stack is not too large, the host gets ready and the areas can be
allocated. -/
theorem start_eq_ok_iff :
    (Machine.start image capacity allocator host).2 = .ok m ↔
      capacity ≤ greatestCapacity ∧ ∃ events ready, Host.prepare host = .ok events ready ∧
        ofHost image capacity allocator ready = .ok m := by
  unfold Machine.start
  by_cases large : greatestCapacity < capacity
  · simp only [large, if_true, reduceCtorEq, Nat.not_le.mpr large, false_and]
  · simp only [large, if_false, Nat.le_of_not_lt large, true_and]
    cases Host.prepare host with
    | error cause ready => simp
    | ok events ready =>
      simp only [EStateM.Result.ok.injEq, and_assoc, exists_and_left, exists_eq_left']
      cases ofHost image capacity allocator ready <;> rfl

/-- A machine is made new, around what the host has become when it was ready. -/
theorem start_fresh (made : (Machine.start image capacity allocator host).2 = .ok m) :
    capacity ≤ greatestCapacity ∧ ∃ events ready,
      Host.prepare host = .ok events ready ∧ Fresh image capacity ready m := by
  obtain ⟨fits, events, ready, prepared, built⟩ := start_eq_ok_iff.mp made
  exact ⟨fits, events, ready, prepared, ofHost_fresh built⟩

end Start

/-- A run starts on a stack whose indices fit in words. -/
theorem History.bounded {past : List (Turn σ)} (history : History image capacity host past m) :
    capacity ≤ greatestCapacity := by
  induction history with
  | start made => exact (start_fresh made).1
  | turn _ _ _ bounded => exact bounded

/-- The states that a machine comes to from another one, turn by turn, also behind a halt and
behind a fault. -/
inductive Later (image : Image) (m : Machine σ) : Machine σ → Prop
  | refl : Later image m m
  | turn {s n : Machine σ} {flow : Flow} (before : Later image m s)
      (advanced : advance image s = .ok flow n) : Later image m n
  | fault {s n : Machine σ} {cause : Fault} (before : Later image m s)
      (faulted : advance image s = .error cause n) : Later image m n

/-- What comes later than something later is later. -/
theorem Later.trans {s : Machine σ} (first : Later image m s) (second : Later image s n) :
    Later image m n := by
  induction second with
  | refl => exact first
  | turn _ advanced earlier => exact earlier.turn advanced
  | fault _ faulted earlier => exact earlier.fault faulted

/-- And what comes later than something reachable is reachable. -/
theorem Reachable.later (reachable : Reachable image capacity host m) (later : Later image m n) :
    Reachable image capacity host n := by
  induction later with
  | refl => exact reachable
  | turn _ advanced earlier => exact earlier.turn advanced
  | fault _ faulted earlier => exact earlier.fault faulted

/-- Records the turns of a machine, for a number of turns at most and as long as it goes on. -/
def record (image : Image) : Nat → List (Turn σ) → Machine σ → List (Turn σ) × Machine σ
  | 0, past, m => (past, m)
  | turns + 1, past, m =>
    match fetch image m.next, advance image m with
    | .ok (instruction, behind), .ok .next n =>
      record image turns (⟨m, instruction, behind, n⟩ :: past) n
    | _, _ => (past, m)

/-- What is recorded after a history goes on with it. Proof: induction on the turns; recording ends
early where a turn faults or reads no instruction. -/
theorem History.record {past : List (Turn σ)} (history : History image capacity host past m)
    (turns : Nat) :
    History image capacity host (Machine.record image turns past m).1
      (Machine.record image turns past m).2 := by
  induction turns generalizing past m with
  | zero => exact history
  | succ turns later =>
    simp only [Machine.record]
    split
    · next instruction behind n fetched advanced => exact later (.turn history fetched advanced)
    · exact history

end BytecodeMachine.Machine
