import BytecodeMachine.Instruction.Encode
import BytecodeMachine.Proofs.Machine.Growth
import BytecodeMachine.Proofs.Machine.Turns
/-!
# What a fault leaves behind

A fault undoes nothing, and a machine that has faulted can be run again. What an instruction
may have done before its fault is little: the last thing it does is what it can do to the
registers, so they are as they were, with the next offset behind the instruction. Only entries
and leaving have set the frame pointer by then.

Many instructions put a word on the stack and do nothing else to it, and these leave the live
words as they were. So do the two that gather words for a new object, which turn them round
first, since a push that follows has room where the words have been. They leave the words
turned round in one case: if the heap is full.
-/
namespace BytecodeMachine

namespace Instruction

/-- Instructions behind whose faults the live words are as they were, if the heap is not full. -/
def sparesWords : Instruction → Bool
  | .constant _ | .string _ | .aggregate _ _ | .array _ | .closure _ _ | .duplicate | .load _
  | .loadPlace _ | .store _ | .readNumber | .jump _ | .ret | .failure _ _ => true
  | _ => false

/-- The number of words, as the operand gives it, that an instruction gathers for a new object. -/
def gathered : Instruction → Option Int32
  | .aggregate _ size => some size
  | .array size => some size
  | _ => none

end Instruction

namespace Machine

open BytecodeMachine.Action

section Registers

variable {σ α : Type} {image : Image} {instruction : Instruction}

/-- The registers but the frame pointer. -/
def course (m : Machine σ) : Nat × Option Int32 × Nat := (m.next, m.line, m.depth)

/-- All registers. -/
def registers (m : Machine σ) : Nat × Nat × Option Int32 × Nat := (m.frame, course m)

/-- Dropping reaches the stack only, so the registers but the frame pointer are out of its reach.
Any instruction that works on nothing but the stack would do here. -/
theorem course_outOfReach : OutOfReach .drop (course : Machine σ → Nat × Option Int32 × Nat) :=
  outOfReach_of_stack fun _ _ _ => rfl

/-- The frame pointer is out of its reach as well. -/
theorem registers_outOfReach :
    OutOfReach .drop (registers : Machine σ → Nat × Nat × Option Int32 × Nat) :=
  outOfReach_of_stack fun _ _ _ => rfl

/-- Instructions that neither go on elsewhere nor set a line or a frame reach no register. What
they may change is the stack, the globals and the host, which are no registers. -/
theorem registers_outOfReach_of (ordinary : instruction.isTransfer = false)
    (straight : instruction.isJump = false) (marks : instruction.isLine = false) :
    OutOfReach instruction (registers : Machine σ → Nat × Nat × Option Int32 × Nat) where
  stack _ _ _ := rfl
  host _ _ _ := rfl
  next jumps := by simp [straight] at jumps
  globals _ _ _ _ := rfl
  line isLine := by simp [marks] at isLine
  running transfers := by simp [ordinary] at transfers

/-- A branch goes elsewhere at its very end. -/
theorem branch_spares_registers (address : Int32) (fit : Int32 → Bool) :
    Spares registers (branch image address fit : Action (Machine σ) Unit) := by
  refine Spares.bind registers_outOfReach.pop fun word => ?_
  refine Spares.bind (keeps_answer _) fun number => ?_
  split
  · exact Spares.bind (keeps_answer _) fun offset => (unfailing_modify _).spares
  · exact (keeps_pure _).spares

/-- A call sets the registers when all else has been done. -/
theorem call_spares_registers (entry arguments dropped : Nat) :
    Spares registers (call entry arguments dropped : Action (Machine σ) Unit) := by
  have reach := registers_outOfReach (σ := σ)
  refine Spares.bind (reach.onStack (Stack.reverse_keeps_capacity arguments)) fun _ => ?_
  refine Spares.bind keeps_get fun m => Spares.bind (keeps_answer _) fun _ => ?_
  refine Spares.bind (reach.push _) fun _ => Spares.bind (keeps_answer _) fun _ => ?_
  exact Spares.bind (reach.push _) fun _ => (unfailing_modify _).spares

/-- Leaving sets the frame pointer and may fault after that, but sets no other register then. The
offset and the depth are set last of all, behind everything that can be refused. -/
theorem leave_spares_course : Spares course (leave image : Action (Machine σ) Flow) := by
  have reach := course_outOfReach (σ := σ)
  refine Spares.bind reach.pop fun result => Spares.bind keeps_get fun m => ?_
  refine Spares.bind (reach.onStack (Stack.setTop_keeps_capacity _)) fun _ => ?_
  refine Spares.bind reach.popLink fun frame => Spares.bind reach.popArgumentCount fun count => ?_
  refine Spares.bind reach.popReturn fun address => ?_
  refine Spares.bind (reach.onStack (Stack.drop_keeps_capacity _)) fun _ => ?_
  refine Spares.bind (reach.push _) fun _ => Spares.bind (keeps_modify fun _ => rfl) fun _ => ?_
  split
  · exact (keeps_pure _).spares
  · refine Spares.bind (keeps_answer _) fun offset => ?_
    exact ((unfailing_modify _).bind fun _ => unfailing_pure _).spares

/-- An entry moves the frame pointer and no other register, whether it succeeds or faults. -/
theorem enter_keeps_course (locals : Nat) :
    Keeps course (enter locals : Action (Machine σ) Unit) := by
  have reach := course_outOfReach (σ := σ)
  refine keeps_get.bind fun m => (reach.push _).bind fun _ => keeps_get.bind fun s => ?_
  refine Keeps.bind (keeps_modify fun _ => rfl) fun _ => ?_
  exact reach.onStack (Stack.reserve_keeps_capacity locals)

variable [Host σ]

/-- A fault leaves all registers as they were, unless the instruction enters or leaves. Jumps and
calls set registers, but as the last thing they do, behind everything that can be refused. -/
theorem execute_spares_registers (image : Image) (enters : instruction.isEntry = false)
    (leaves : instruction ≠ .leave) :
    Spares registers (execute image instruction : Action (Machine σ) Flow) := by
  cases instruction with
  | leave => exact absurd rfl leaves
  | enter arguments locals => cases enters
  | enterClosure arguments locals => cases enters
  | jump address =>
    refine Spares.bind (keeps_answer _) fun offset => ?_
    exact ((unfailing_modify _).bind fun _ => unfailing_pure _).spares
  | jumpIfZero address => exact (branch_spares_registers _ _).before fun _ => unfailing_pure _
  | jumpUnlessZero address => exact (branch_spares_registers _ _).before fun _ => unfailing_pure _
  | call address arguments =>
    refine Spares.bind (keeps_answer _) fun size => Spares.bind (keeps_answer _) fun offset => ?_
    exact (call_spares_registers _ _ _).before fun _ => unfailing_pure _
  | callClosure arguments =>
    refine Spares.bind (keeps_answer _) fun size => Spares.before ?_ fun _ => unfailing_pure _
    refine Spares.bind (keeps_observe _) fun word => Spares.bind (keeps_answer _) fun closure => ?_
    refine Spares.bind (keeps_observe _) fun entry => Spares.bind (keeps_answer _) fun offset => ?_
    exact call_spares_registers _ _ _
  | line number => exact ((unfailing_modify _).bind fun _ => unfailing_pure _).spares
  | _ => exact (execute_keeps (registers_outOfReach_of rfl rfl rfl) image).spares

/-- A fault leaves the next offset, the line and the depth as they were. Entries set nothing but
the frame pointer, and leaving changes the others only when nothing can fail any more. -/
theorem execute_spares_course (image : Image) (instruction : Instruction) :
    Spares course (execute image instruction : Action (Machine σ) Flow) := by
  by_cases leaves : instruction = .leave
  · subst leaves
    exact leave_spares_course
  · cases enters : instruction.isEntry with
    | true =>
      cases instruction with
      | enter arguments locals =>
        refine Spares.bind (keeps_answer _) fun size => Spares.before ?_ fun _ => unfailing_pure _
        exact (enter_keeps_course _).spares
      | enterClosure arguments locals =>
        refine Spares.bind (keeps_answer _) fun size => Spares.before ?_ fun _ => unfailing_pure _
        exact (enter_keeps_course _).spares
      | _ => cases enters
    | false =>
      intro m
      exact (execute_spares_registers image enters leaves m).mono (fun _ _ done => done)
        fun _ _ same => (Prod.mk.inj same).2

end Registers

section Words

variable {image : Image} {instruction : Instruction} {m n : Machine Workspace} {cause : Fault}

/-- A word that is put on the stack at the end is put there or not. -/
theorem push_spares_stack (value : Value) :
    Spares stack (push value >>= fun _ => pure Flow.next : Action (Machine Workspace) Flow) :=
  (spares_of_id (push_spares value)).before fun _ => unfailing_pure _

/-- An instruction that does no more to the stack than put a word there leaves it as it was
behind a fault. -/
theorem execute_spares_stack (image : Image) (spares : instruction.sparesWords = true)
    (gathers : instruction.gathered = none) :
    Spares stack (execute image instruction : Action (Machine Workspace) Flow) := by
  cases instruction with
  | constant number => exact push_spares_stack _
  | string offset =>
    refine Spares.bind (keeps_answer _) fun bytes => ?_
    exact Spares.bind (onHost_keeps (fun _ _ => rfl) _) fun _ => push_spares_stack _
  | closure address captured =>
    refine Spares.bind (keeps_answer _) fun entry => Spares.bind (keeps_observe _) fun words => ?_
    exact Spares.bind (onHost_keeps (fun _ _ => rfl) _) fun _ => push_spares_stack _
  | duplicate => exact Spares.bind (keeps_observe _) fun _ => push_spares_stack _
  | load name => exact Spares.bind (keeps_observe _) fun _ => push_spares_stack _
  | loadPlace name => exact Spares.bind (keeps_observe _) fun _ => push_spares_stack _
  | store name =>
    refine Spares.bind (keeps_observe _) fun value => Spares.before ?_ fun _ => unfailing_pure _
    refine Spares.bind (keeps_observe _) fun place => Spares.during _ ?_
    exact spares_of_id (writeSlot_spares place value)
  | readNumber => exact Spares.bind (onHost_keeps (fun _ _ => rfl) _) fun _ => push_spares_stack _
  | jump address =>
    refine Spares.bind (keeps_answer _) fun offset => ?_
    exact ((unfailing_modify _).bind fun _ => unfailing_pure _).spares
  | ret => exact (keeps_throw _).spares
  | failure line column => exact (keeps_throw _).spares
  | aggregate name arity => cases gathers
  | array length => cases gathers
  | _ => cases spares

/-- The words are live as before, or the topmost ones have been turned round because the heap is
full. -/
def TurnedAtMost (size : Nat) (m n : Machine Workspace) : Prop :=
  n.stack.live.toList = m.stack.live.toList ∨
    4294967296 ≤ m.host.heap.size ∧
      n.stack.live.toList =
        (m.stack.live.toList.take size).reverse ++ m.stack.live.toList.drop size

/-- An allocation leaves the stack alone, and it is refused only if the heap is full. -/
theorem alloc_ends_full (made : Object) (m : Machine Workspace) :
    (onHost (Workspace.onHeap (Heap.alloc made))).Ends m (fun _ n => n.stack = m.stack)
      fun _ n => n.stack = m.stack ∧ 4294967296 ≤ m.host.heap.size := by
  refine onHost_ends ?_
  by_cases room : m.host.heap.size < 4294967296
  · simp [Ends, Workspace.onHeap, Heap.alloc, room]
  · simp only [Ends, Workspace.onHeap, Heap.alloc, room, if_false]
    exact ⟨trivial, Nat.le_of_not_lt room⟩

/-- As many words as are asked for are live, and they have been turned round. -/
structure Turned (size : Nat) (m n : Machine Workspace) : Prop where
  host : n.host = m.host
  enough : size ≤ n.stack.live.toList.length
  live : n.stack.live.toList =
    (m.stack.live.toList.take size).reverse ++ m.stack.live.toList.drop size

/-- Reversing turns the topmost words round, or it is refused and the stack is as it was. In the
first case there were as many as asked for. -/
theorem reverse_ends (size : Nat) (m : Machine Workspace) :
    (onStack (Stack.reverse size)).Ends m (fun _ n => Turned size m n)
      fun _ n => n.stack = m.stack := by
  apply onStack_ends
  unfold Ends
  cases ended : Stack.reverse size m.stack with
  | ok a stack =>
    have live := Stack.reverse_live ended
    have enough := (Stack.reverse_eq_ok_iff.mp ended).1
    have length := m.stack.length_live
    simp only [Stack.capacity] at length
    refine ⟨rfl, ?_, live⟩
    rw [live, List.length_append, List.length_reverse, List.length_take, List.length_drop]
    omega
  | error cause stack => exact (Stack.reverse_spares size).of_error ended

/-- With as many live words as are to be dropped, dropping cannot be refused. So it ends in one way
only, and nothing is required of a fault. -/
theorem discard_ends {size : Nat} (enough : size ≤ m.stack.live.toList.length)
    {failed : Fault → Machine Workspace → Prop} :
    (onStack (Stack.drop size)).Ends m
      (fun _ n => n.stack.top = m.stack.top + size ∧
        n.stack.live.toList = m.stack.live.toList.drop size) failed := by
  refine onStack_ends ?_
  obtain ⟨stack, dropped⟩ := Stack.drop_enough enough
  unfold Ends
  rw [dropped]
  exact ⟨(Stack.drop_eq_ok_iff.mp dropped).1, Stack.drop_live dropped⟩

/-- A push is refused only by a full stack, which is then as it was. Full means that the top has
come to the beginning of the area. -/
theorem push_ends_full (value : Value) (m : Machine Workspace) :
    (push value).Ends m (fun _ _ => True) fun _ n => n.stack = m.stack ∧ m.stack.top = 0 := by
  refine onStack_ends ?_
  unfold Ends
  cases ended : Stack.push value m.stack with
  | ok a stack => trivial
  | error cause stack =>
    obtain ⟨full, same⟩ := Stack.push_eq_error ended
    exact ⟨same, full⟩

/-- Gathering words faults before it has turned them round, or because no object can be made, or
because there is no room for the reference, which only happens if no words are gathered. -/
theorem gather_fault_turned (size : Nat) (object : Array Value → Object) (m : Machine Workspace) :
    (gather size fun words => Workspace.onHeap (Heap.alloc (object words))).Ends m
      (fun _ _ => True) fun _ n => TurnedAtMost size m n := by
  have turned : (onStack (Stack.reverse size)).Ends m (fun _ s => Turned size m s)
      fun _ n => TurnedAtMost size m n := by
    apply (reverse_ends size m).mono
    · intro _ s done
      exact done
    · intro _ n same
      left
      rw [same]
  apply turned.bind
  rintro _ s ⟨host, enough, live⟩
  have seen : (observe fun m : Machine Workspace => m.stack.window size).Ends s
      (fun _ t => t = s) fun _ n => TurnedAtMost size m n := by
    obtain ⟨found, seen⟩ := Stack.window_enough enough
    simp only [Ends, observe, seen]
  apply seen.bind
  rintro words s rfl
  have made : (onHost (Workspace.onHeap (Heap.alloc (object words)))).Ends s
      (fun _ t => t.stack = s.stack) fun _ n => TurnedAtMost size m n := by
    apply (alloc_ends_full (object words) s).mono
    · intro _ t same
      exact same
    · rintro _ n ⟨same, full⟩
      right
      rw [← host, same, live]
      exact ⟨full, rfl⟩
  apply made.bind
  intro reference t same
  have stillEnough : size ≤ t.stack.live.toList.length := by rwa [same]
  apply (discard_ends stillEnough).bind
  rintro _ u ⟨top, rest⟩
  apply (push_ends_full (.ref reference) u).mono
  · intro _ n done
    exact done
  · rintro _ n ⟨same', full⟩
    -- the reference finds no room only if it does not take the place of a word
    obtain rfl : size = 0 := by omega
    left
    rw [same', rest, same, live]
    rfl

/-- If an object cannot be made of gathered words, either nothing has been done or the words have
been turned round and the heap is full. Behind the gathering there is nothing left that could
fault. -/
theorem turned_of_gather_fault {size : Nat} {object : Array Value → Object}
    (faulted : (gather size (fun words => Workspace.onHeap (Heap.alloc (object words))) >>=
      fun _ => pure Flow.next) m = .error cause n) : TurnedAtMost size m n := by
  rcases bind_eq_error_iff.mp faulted with failed | ⟨_, _, _, never⟩
  · exact (gather_fault_turned size object m).of_error failed
  · cases never

/-- Behind a fault of an instruction that spares words they are live as before, except that
gathered words have been turned round if the heap is full. -/
theorem execute_fault_words (spares : instruction.sparesWords = true)
    (faulted : execute image instruction m = .error cause n) :
    n.stack.live = m.stack.live ∨ ∃ operand size, instruction.gathered = some operand ∧
      count operand = .ok size ∧ TurnedAtMost size m n := by
  have same (gathers : instruction.gathered = none) : n.stack.live = m.stack.live :=
    congrArg Stack.live ((execute_spares_stack image spares gathers).of_error faulted)
  cases instruction with
  | aggregate name arity =>
    rcases observe_bind_eq_error faulted with rfl | ⟨size, counted, faulted⟩
    · exact .inl rfl
    rcases observe_bind_eq_error faulted with rfl | ⟨bytes, _, faulted⟩
    · exact .inl rfl
    rcases observe_bind_eq_error faulted with rfl | ⟨tag, _, faulted⟩
    · exact .inl rfl
    exact .inr ⟨arity, size, rfl, counted, turned_of_gather_fault faulted⟩
  | array length =>
    rcases observe_bind_eq_error faulted with rfl | ⟨size, counted, faulted⟩
    · exact .inl rfl
    exact .inr ⟨length, size, rfl, counted, turned_of_gather_fault faulted⟩
  | _ => exact .inl (same rfl)

/-- What a fault leaves behind on a workspace. Where nothing can be read, everything. Behind a fault
of an instruction that was read, the globals, the line, the depth and the objects that were
there; one object may have been made, the next offset is behind the instruction, and only
entries and leaving have set the frame pointer. If the instruction spares words, these are
live as before; but if the heap was full, an instruction that gathers words has left them
turned round. -/
theorem faults_leave_behind (image : Image) (m : Machine Workspace) :
    (∀ cause, fetch image m.next = .error cause →
        ∃ reported, advance image m = .error reported m) ∧
      ∀ instruction behind cause n, fetch image m.next = .ok (instruction, behind) →
        advance image m = .error cause n →
        (n.globals = m.globals ∧ n.line = m.line ∧ n.depth = m.depth ∧ n.next = behind) ∧
          (∃ added, n.host.heap.objects = m.host.heap.objects ++ added ∧ added.size ≤ 1) ∧
          (instruction.isEntry = false → instruction ≠ .leave → n.frame = m.frame) ∧
          (instruction.sparesWords = true → n.stack.live = m.stack.live ∨
            4294967296 ≤ m.host.heap.size ∧ ∃ operand size,
              instruction.gathered = some operand ∧ count operand = .ok size ∧
                n.stack.live.toList =
                  (m.stack.live.toList.take size).reverse ++ m.stack.live.toList.drop size) := by
  constructor
  · intro cause unread
    exact advance_of_unread unread
  · intro instruction behind cause n fetched faulted
    have inside := fetch_inside fetched
    obtain ⟨_, failed⟩ := executed_of_fault (by omega) fetched faulted
    have grown : Grown { m with next := behind } n := execute_fault_grown failed
    have course := (execute_spares_course image instruction).of_error failed
    obtain ⟨next, line, depth⟩ : n.next = behind ∧ n.line = m.line ∧ n.depth = m.depth := by
      simpa only [Machine.course, Prod.mk.injEq] using course
    refine ⟨⟨grown.globals, line, depth, next⟩, grown.heap, ?_, ?_⟩
    · intro enters leaves
      have same := (execute_spares_registers image enters leaves).of_error failed
      exact (Prod.mk.inj same).1
    · intro spares
      rcases execute_fault_words spares failed with same | ⟨operand, size, gathers, counted, turned⟩
      · exact .inl same
      rcases turned with same | ⟨full, turned⟩
      · exact .inl (Array.toList_inj.mp same)
      · exact .inr ⟨full, operand, size, gathers, counted, turned⟩

end Words

/-- A program that duplicates the top word, until there is no room. -/
def fullStack : Image where
  strings := #[]
  publics := []
  code := (([.duplicate, .duplicate] : List Instruction).flatMap Instruction.encode).toArray
  globals := 0

/-- The second word finds no room on a stack of five, and what was there is there still. The heap
is not full either, so no words have been turned round. -/
theorem faults_leave_behind_fullStack :
    ∃ m cause n, Reachable fullStack 5 (Workspace.ofInput [] {}) m ∧
      advance fullStack m = .error cause n ∧ n.next = 2 ∧ n.stack.live = m.stack.live := by
  obtain ⟨first, cause, n, made, fetched, faulted, empty⟩ :
      ∃ first cause n,
        (Machine.start fullStack 5 .boundless (Workspace.ofInput [] {})).2 = .ok first ∧
        fetch fullStack (record fullStack 1 [] first).2.next = .ok (.duplicate, 2) ∧
        advance fullStack (record fullStack 1 [] first).2 = .error cause n ∧
        (record fullStack 1 [] first).2.host.heap.size = 0 :=
    ⟨_, _, _, rfl, rfl, rfl, rfl⟩
  have reachable := ((History.start made).record 1).reachable
  obtain ⟨_, behind⟩ := faults_leave_behind fullStack (record fullStack 1 [] first).2
  obtain ⟨⟨_, _, _, next⟩, _, _, words⟩ := behind _ _ _ _ fetched faulted
  rcases words rfl with same | ⟨full, _⟩
  · exact ⟨_, cause, n, reachable, faulted, next, same⟩
  · rw [empty] at full
    exact absurd full (by decide)

/-! ### Gathered words in a full heap -/

/-- A program that makes an array after a countdown, over and over. -/
def fillingHeap : Image where
  strings := #[]
  publics := []
  code := (([.constant 255, .constant 1, .binary .sub, .duplicate, .jumpUnlessZero 5, .drop,
    .constant 1, .constant 2, .array 2, .drop, .jump 0] : List Instruction).flatMap
      Instruction.encode).toArray
  globals := 0

/-- The words that a new machine starts with. -/
def bottomWords : List Value := [.scalar 2, .scalar (-1), .scalar 0, .scalar 0]

/-- Numbers that small are not cut off. -/
theorem sub_one_counts : ∀ k : Fin 255,
    Value.ofInt (Int32.ofNat (k + 1) - 1) = .scalar (Int32.ofNat k) := by decide +kernel

/-- None of the numbers from 1 to 255 is zero as a number of 32 bits. -/
theorem counts_ne_zero : ∀ k : Fin 255, Int32.ofNat (k + 1) ≠ 0 := by decide +kernel

variable {m : Machine Workspace} {objects : Nat}

/-- One is taken from the number, and the program goes on counting unless that leaves zero. These
are four turns: the constant, the difference, its copy, and the branch that takes the copy. -/
theorem fillingHeap_counts (k : Nat) (small : k < 255)
    (stands : Stands 16 5 (.scalar (Int32.ofNat (k + 1)) :: bottomWords) objects m) :
    Leads fillingHeap m (Stands 16 (if Int32.ofNat k = 0 then 17 else 5)
      (.scalar (Int32.ofNat k) :: bottomWords) objects) := by
  have applied : Operator.apply .sub (.scalar (Int32.ofNat (k + 1))) (.ofInt 1) =
      .ok (.scalar (Int32.ofNat k)) := congrArg Except.ok (sub_one_counts ⟨k, small⟩)
  refine (stands.constant rfl (by simp [bottomWords])).trans fun s stands => ?_
  refine (stands.binary rfl applied (by decide)).trans fun s stands => ?_
  refine (stands.duplicate rfl (by decide)).trans fun s stands => ?_
  exact stands.jumpUnlessZero rfl rfl

/-- The countdown ends at zero, with the words below the number as they were. Proof: induction on
the number, which the branch leads back to until zero is left, and that is dropped. -/
theorem fillingHeap_countsDown (k : Nat) (small : k < 255)
    (stands : Stands 16 5 (.scalar (Int32.ofNat (k + 1)) :: bottomWords) objects m) :
    Leads fillingHeap m (Stands 16 18 bottomWords objects) := by
  induction k generalizing m with
  | zero =>
    refine (fillingHeap_counts 0 small stands).trans fun s stands => ?_
    exact stands.drop rfl
  | succ k fewer =>
    refine (fillingHeap_counts (k + 1) small stands).trans fun s stands => ?_
    rw [if_neg (counts_ne_zero ⟨k, by omega⟩)] at stands
    exact fewer (by omega) stands

/-- Behind the countdown two words are put on the stack, for an array of both. -/
theorem fillingHeap_gathers (stands : Stands 16 0 bottomWords objects m) :
    Leads fillingHeap m (Stands 16 28 ([.ofInt 2, .ofInt 1] ++ bottomWords) objects) := by
  refine (stands.constant rfl (by decide)).trans fun s stands => ?_
  refine (fillingHeap_countsDown 254 (by decide) stands).trans fun s stands => ?_
  refine (stands.constant rfl (by decide)).trans fun s stands => ?_
  exact stands.constant rfl (by decide)

/-- The instruction of the filling program that makes an array. -/
theorem fillingHeap_fetches : fetch fillingHeap 28 = .ok (.array 2, 33) := rfl

/-- A round of the program makes an array, if the heap has room for it. -/
theorem fillingHeap_round (stands : Stands 16 0 bottomWords objects m)
    (room : objects < 4294967296) :
    Leads fillingHeap m (Stands 16 0 bottomWords (objects + 1)) := by
  have two : count 2 = .ok 2 := rfl
  refine (fillingHeap_gathers stands).trans fun s stands => ?_
  refine (stands.array fillingHeap_fetches two rfl (by decide) room).trans fun s stands => ?_
  refine (stands.drop rfl).trans fun s stands => ?_
  exact stands.jump rfl rfl

/-- Round by round the program comes to any number of objects that the heap has room for. Proof:
induction on the objects; a round makes one more and ends where it began. -/
theorem fillingHeap_fills (objects : Nat) (room : objects ≤ 4294967296) :
    ∃ m, Reachable fillingHeap 16 (Workspace.ofInput [] {}) m ∧
      Stands 16 0 bottomWords objects m := by
  induction objects with
  | zero =>
    obtain ⟨m, made, stands⟩ : ∃ m,
        (Machine.start fillingHeap 16 .boundless (Workspace.ofInput [] {})).2 = .ok m ∧
          Stands 16 0 bottomWords 0 m := ⟨_, rfl, rfl, rfl, rfl, rfl⟩
    exact ⟨m, .start made, stands⟩
  | succ objects fewer =>
    obtain ⟨m, reachable, stands⟩ := fewer (by omega)
    obtain ⟨n, later, standing⟩ := fillingHeap_round stands (by omega)
    exact ⟨n, reachable.later later, standing⟩

/-- When the heap is full the array cannot be made, and its elements have changed places. The
program fills the heap in a loop that comes to every number of objects. -/
theorem full_heap_turns_words_round :
    ∃ m cause n, Reachable fillingHeap 16 (Workspace.ofInput [] {}) m ∧
      fetch fillingHeap m.next = .ok (.array 2, 33) ∧ advance fillingHeap m = .error cause n ∧
      n.stack.live ≠ m.stack.live := by
  obtain ⟨s, reachable, stands⟩ := fillingHeap_fills 4294967296 (Nat.le_refl _)
  obtain ⟨m, later, stands⟩ := fillingHeap_gathers stands
  have two : count 2 = .ok 2 := rfl
  obtain ⟨cause, n, faulted, left⟩ :=
    stands.array_full fillingHeap_fetches two rfl (Nat.le_refl _)
  refine ⟨m, cause, n, reachable.later later, ?_, faulted, ?_⟩
  · rw [stands.next]
    exact fillingHeap_fetches
  · intro same
    have sameWords := congrArg Array.toList same
    rw [stands.live, left.live] at sameWords
    exact absurd sameWords (by decide)

end Machine

end BytecodeMachine
