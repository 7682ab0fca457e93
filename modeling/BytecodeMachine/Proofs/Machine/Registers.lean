import BytecodeMachine.Proofs.Instruction.Progress
import BytecodeMachine.Proofs.Machine.History
import BytecodeMachine.Proofs.Machine.Linkage
/-!
# Registers stay in bounds

Frame pointers are read back from words that a program can overwrite, and return addresses
too. Both are checked when they are taken from the stack, so in every state that a machine
comes to, also behind a fault, the frame pointer is not behind the end of the stack and the
next offset is not behind the end of the code. The areas keep the sizes they were made with.

Eight instructions set the frame pointer or go on elsewhere. All others have both out of their
reach, and the offset behind an instruction is inside because its bytes are.
-/
namespace BytecodeMachine.Machine

open BytecodeMachine.Action

variable {σ α : Type} {image : Image} {capacity : Nat} {m n : Machine σ}

/-- The areas have the sizes they were made with, and the registers are inside. -/
structure Bounded (image : Image) (capacity : Nat) (m : Machine σ) : Prop where
  capacity_eq : m.stack.capacity = capacity
  globals_eq : m.globals.size = image.globals
  frame_le : m.frame ≤ capacity
  next_le : m.next ≤ image.code.size

/-- All that being bounded depends on. -/
def bounds (m : Machine σ) : Nat × Nat × Nat × Nat :=
  (m.stack.capacity, m.globals.size, m.frame, m.next)

/-- What has the same sizes and registers is bounded alike. These four are all that the bounds
speak of, so the conditions are rewritten one by one. -/
theorem Bounded.of_bounds (bounded : Bounded image capacity m) (same : bounds n = bounds m) :
    Bounded image capacity n := by
  simp only [bounds, Prod.mk.injEq] at same
  obtain ⟨sameCapacity, sameGlobals, sameFrame, sameNext⟩ := same
  constructor
  · rw [sameCapacity]
    exact bounded.capacity_eq
  · rw [sameGlobals]
    exact bounded.globals_eq
  · rw [sameFrame]
    exact bounded.frame_le
  · rw [sameNext]
    exact bounded.next_le

/-- Instructions that neither change which function runs nor go on elsewhere reach no bounds. They
may change words of the stack and of the globals, but not how many there are. -/
theorem bounds_outOfReach {instruction : Instruction} (ordinary : instruction.isTransfer = false)
    (straight : instruction.isJump = false) :
    OutOfReach instruction (bounds : Machine σ → Nat × Nat × Nat × Nat) where
  stack m stack same := by simp only [bounds, same]
  host _ _ _ := rfl
  next jumps := by simp [straight] at jumps
  globals _ m globals same := by simp only [bounds, same]
  line _ _ _ := rfl
  running transfers := by simp [ordinary] at transfers

/-- So whatever keeps these four keeps a machine bounded, whether it faults or not. -/
theorem maintains_of_keeps {action : Action (Machine σ) α} (keeps : Keeps bounds action) :
    Maintains (Bounded image capacity) action :=
  keeps.maintains fun _ _ same bounded => bounded.of_bounds same

/-- No operation on the stack reaches any bounds. -/
theorem stack_outOfReach :
    OutOfReach .drop (bounds : Machine σ → Nat × Nat × Nat × Nat) :=
  bounds_outOfReach rfl rfl

/-- A push keeps them, as does all work on the stack that leaves its storage as large as it is. -/
theorem maintains_push (value : Value) :
    Maintains (Bounded image capacity) (push value : Action (Machine σ) Unit) :=
  maintains_of_keeps (stack_outOfReach.push value)

/-- Taking a word keeps them. -/
theorem maintains_pop : Maintains (Bounded image capacity) (pop : Action (Machine σ) Value) :=
  maintains_of_keeps stack_outOfReach.pop

/-- This is the general case, from which the work of calls and entries on the stack follows. -/
theorem maintains_onStack {action : Action Stack α} (keeps : Keeps Stack.capacity action) :
    Maintains (Bounded image capacity) (onStack action : Action (Machine σ) α) :=
  maintains_of_keeps (stack_outOfReach.onStack keeps)

/-- A jump goes to an offset in the code. -/
theorem maintains_jumpTo {offset : Nat} (inside : offset < image.code.size) :
    Maintains (Bounded image capacity) (jumpTo offset : Action (Machine σ) Unit) :=
  fun _ bounded => ⟨bounded.capacity_eq, bounded.globals_eq, bounded.frame_le, Nat.le_of_lt inside⟩

/-- The frame pointer may be moved inside the stack. -/
theorem maintains_setFrame {index : Nat} (inside : index ≤ capacity) :
    Maintains (Bounded image capacity) (setFrame index : Action (Machine σ) Unit) :=
  fun _ bounded => ⟨bounded.capacity_eq, bounded.globals_eq, inside, bounded.next_le⟩

/-- The target of a jump is inside the code. -/
theorem target_lt {address : Int32} {offset : Nat} (found : target image address = .ok offset) :
    offset < image.code.size := by
  obtain ⟨⟨_, inside⟩, rfl⟩ := target_eq_ok_iff.mp found
  exact inside

/-- A branch stays or goes to such a target. -/
theorem maintains_branch (address : Int32) (fit : Int32 → Bool) :
    Maintains (Bounded image capacity) (branch image address fit : Action (Machine σ) Unit) := by
  refine maintains_pop.bind fun word => Maintains.afterAnswer fun number _ => ?_
  split
  · exact Maintains.afterAnswer fun offset found => maintains_jumpTo (target_lt found)
  · exact maintains_pure _

/-- The new frame is where the stack has its top. The top is inside the stack whatever has been
pushed, and reserving the locals does not move the frame. -/
theorem maintains_enter (locals : Nat) :
    Maintains (Bounded image capacity) (enter locals : Action (Machine σ) Unit) := by
  refine Maintains.afterGet fun m bounded => ((maintains_push _).bind fun _ =>
    Maintains.afterGet fun s pushed => ?_) m bounded
  have topInside : s.stack.top ≤ capacity := by
    rw [← pushed.capacity_eq]
    exact s.stack.top_le
  exact (maintains_setFrame topInside).bind
    (fun _ => maintains_onStack (Stack.reserve_keeps_capacity locals)) s pushed

/-- A call goes on at an entry that is inside. It does not move the frame pointer, which is left to
the instruction that stands there. -/
theorem maintains_call {entry : Nat} (arguments dropped : Nat) (inside : entry < image.code.size) :
    Maintains (Bounded image capacity)
      (call entry arguments dropped : Action (Machine σ) Unit) := by
  refine (maintains_onStack (Stack.reverse_keeps_capacity arguments)).bind fun _ => ?_
  refine (maintains_of_keeps keeps_get).bind fun m => ?_
  refine (maintains_of_keeps (keeps_answer _)).bind fun _ => (maintains_push _).bind fun _ => ?_
  refine (maintains_of_keeps (keeps_answer _)).bind fun _ => (maintains_push _).bind fun _ => ?_
  intro m bounded
  exact ⟨bounded.capacity_eq, bounded.globals_eq, bounded.frame_le, Nat.le_of_lt inside⟩

/-- A frame pointer from the stack is checked against the end of the stack. If it passes, it is
inside, and nothing else has changed that matters. -/
theorem popLink_ends (bounded : Bounded image capacity m) :
    popLink.Ends m (fun pointer n => Bounded image capacity n ∧ pointer ≤ capacity)
      fun _ n => Bounded image capacity n := by
  refine Ends.bind (maintains_pop m bounded) fun word s popped => ?_
  refine Ends.bind (maintains_of_keeps (keeps_answer _) s popped) fun number t checked => ?_
  have looked : (get : Action (Machine σ) (Machine σ)).Ends t (fun found u => found = t ∧ u = t)
      fun _ u => Bounded image capacity u := ⟨rfl, rfl⟩
  refine looked.bind ?_
  rintro _ _ ⟨rfl, rfl⟩
  split
  · next inside =>
    refine ⟨checked, ?_⟩
    rw [← checked.capacity_eq]
    exact inside.2
  · exact checked

/-- Leaving checks what it restores: the frame pointer against the size of the stack and, unless it
is the one that ends the run, the address against the code. -/
theorem maintains_leave :
    Maintains (Bounded image capacity) (leave image : Action (Machine σ) Flow) := by
  refine maintains_pop.bind fun result => (maintains_of_keeps keeps_get).bind fun m => ?_
  refine (maintains_onStack (Stack.setTop_keeps_capacity _)).bind fun _ s bounded => ?_
  refine Ends.bind (popLink_ends bounded) ?_
  rintro frame t ⟨linked, inside⟩
  have counts : Maintains (Bounded image capacity) (popArgumentCount : Action (Machine σ) Nat) :=
    maintains_of_keeps stack_outOfReach.popArgumentCount
  have returns : Maintains (Bounded image capacity) (popReturn : Action (Machine σ) Int32) :=
    maintains_of_keeps stack_outOfReach.popReturn
  refine (counts.bind fun arguments => returns.bind fun address =>
    (maintains_onStack (Stack.drop_keeps_capacity arguments)).bind fun _ =>
      (maintains_push result).bind fun _ => (maintains_setFrame inside).bind fun _ => ?_) t linked
  split
  · exact maintains_pure _
  · refine Maintains.afterAnswer fun offset found => Maintains.bind ?_ fun _ => maintains_pure _
    have inside := target_lt (Answer.during_eq_ok_iff.mp found)
    intro m bounded
    exact ⟨bounded.capacity_eq, bounded.globals_eq, bounded.frame_le, Nat.le_of_lt inside⟩

variable [Host σ]

/-- The entry of a closure is checked like any target before it is called. What is looked up before
that changes nothing, and the call itself goes to a checked offset. -/
theorem maintains_callClosure (arguments : Nat) :
    Maintains (Bounded image capacity)
      (callClosure image arguments : Action (Machine σ) Unit) := by
  refine (maintains_of_keeps (keeps_observe _)).bind fun word => ?_
  refine (maintains_of_keeps (keeps_answer _)).bind fun closure => ?_
  refine (maintains_of_keeps (keeps_observe _)).bind fun entry => ?_
  refine Maintains.afterAnswer fun offset found => ?_
  obtain ⟨_, _, targeted⟩ := Answer.bind_eq_ok_iff.mp found
  exact maintains_call _ _ (target_lt targeted)

/-- Every instruction keeps machines bounded, also when it faults. Proof: by cases on the
instruction. Those that set a register set it to something that has been checked, and for all
others the bounds are out of reach. -/
theorem execute_maintains_bounds (instruction : Instruction) :
    Maintains (Bounded image capacity)
      (execute image instruction : Action (Machine σ) Flow) := by
  have ends {first : Action (Machine σ) Unit} (begins : Maintains (Bounded image capacity) first) :
      Maintains (Bounded image capacity) (first >>= fun _ => pure Flow.next) :=
    begins.bind fun _ => maintains_pure _
  cases instruction with
  | jump address =>
    exact Maintains.afterAnswer fun offset found => ends (maintains_jumpTo (target_lt found))
  | jumpIfZero address => exact ends (maintains_branch _ _)
  | jumpUnlessZero address => exact ends (maintains_branch _ _)
  | leave => exact maintains_leave
  | enter arguments locals =>
    exact (maintains_of_keeps (keeps_answer _)).bind fun _ => ends (maintains_enter _)
  | enterClosure arguments locals =>
    exact (maintains_of_keeps (keeps_answer _)).bind fun _ => ends (maintains_enter _)
  | callClosure arguments =>
    exact (maintains_of_keeps (keeps_answer _)).bind fun _ => ends (maintains_callClosure _)
  | call address arguments =>
    refine (maintains_of_keeps (keeps_answer _)).bind fun size => ?_
    exact Maintains.afterAnswer fun offset found => ends (maintains_call _ _ (target_lt found))
  | _ => exact maintains_of_keeps (execute_keeps (bounds_outOfReach rfl rfl) image)

omit [Host σ] in
/-- What is read at an offset is inside the code and not empty. At the end of the code nothing is
read, and elsewhere the cursor goes forward by the opcode at least. -/
theorem fetch_inside {offset behind : Nat} {instruction : Instruction}
    (fetched : fetch image offset = .ok (instruction, behind)) :
    offset < behind ∧ behind ≤ image.code.size := by
  unfold fetch at fetched
  split at fetched
  · next found cursor read =>
    cases fetched
    by_cases behind : image.code.size ≤ offset
    · rw [Instruction.read_at_end behind] at read
      cases read
    · have within := (Instruction.read_ends_within (Nat.not_le.mp behind)).of_ok read
      exact ⟨within.start_le, within.le_size⟩
  · cases fetched

/-- A turn keeps a machine bounded, also when nothing can be read or the instruction faults. What
is read lies inside the code, so the next offset behind it does not go beyond the end. -/
theorem advance_maintains_bounds :
    Maintains (Bounded image capacity) (advance image : Action (Machine σ) Flow) := by
  intro m bounded
  unfold Ends advance
  by_cases atEnd : image.code.size ≤ m.next
  · simp only [atEnd, if_true]
    exact bounded
  · simp only [atEnd, if_false]
    cases fetched : fetch image m.next with
    | error cause => exact bounded
    | ok found =>
      obtain ⟨instruction, behind⟩ := found
      have moved : Bounded image capacity { m with next := behind } :=
        ⟨bounded.capacity_eq, bounded.globals_eq, bounded.frame_le, (fetch_inside fetched).2⟩
      have ended := execute_maintains_bounds instruction _ moved
      simp only [turn]
      cases outcome : execute image instruction { m with next := behind } with
      | ok flow n => exact ended.of_ok outcome
      | error cause n => exact ended.of_error outcome

omit [Host σ] in
/-- A new machine is bounded. Its frame is the top of the stack, four words below the end, and its
next offset is the beginning of the code. -/
theorem Fresh.bounded {host : σ} (fresh : Fresh image capacity host m) :
    Bounded image capacity m := by
  have top := fresh.top
  constructor
  · exact fresh.size
  · rw [fresh.globals, Array.size_replicate]
  · rw [fresh.frame]
    omega
  · rw [fresh.next]
    exact Nat.zero_le _

/-- Every state that a machine comes to is bounded, and the stack is not too large for frame
pointers to be kept in words. -/
theorem Reachable.bounded {host : σ} (reachable : Reachable image capacity host m) :
    Bounded image capacity m ∧ capacity ≤ greatestCapacity := by
  induction reachable with
  | start made =>
    obtain ⟨fits, _, _, _, fresh⟩ := start_fresh made
    exact ⟨fresh.bounded, fits⟩
  | turn before advanced earlier =>
    exact ⟨(advance_maintains_bounds _ earlier.1).of_ok advanced, earlier.2⟩
  | fault before faulted earlier =>
    exact ⟨(advance_maintains_bounds _ earlier.1).of_error faulted, earlier.2⟩

end BytecodeMachine.Machine
