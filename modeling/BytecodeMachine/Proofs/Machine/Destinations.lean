import BytecodeMachine.Proofs.Machine.Footprint
import BytecodeMachine.Proofs.Machine.Linkage
/-!
# Where instructions go on

Apart from leaving, which takes the offset from the stack, an instruction goes on behind itself,
at its own address operand, or where a closure of the heap is entered. The entries of closures
are address operands too: only the instruction that makes a closure puts an entry into the
heap, and no store replaces one.
-/
namespace BytecodeMachine

/-- The address operand of an instruction. -/
def Instruction.address? : Instruction → Option Int32
  | .jump address | .jumpIfZero address | .jumpUnlessZero address => some address
  | .call address _ | .closure address _ => some address
  | _ => none

namespace Heap

variable {good : Nat → Prop} {heap after : Heap} {made : Object}

/-- The closures of the heap are entered at such offsets only. -/
def Enters (good : Nat → Prop) (heap : Heap) : Prop :=
  ∀ object shape, heap.shape? object = some shape → ∀ entry ∈ shape.entry?, good entry

/-- Without objects there is no closure to enter. -/
theorem enters_empty (none : heap.objects = #[]) : heap.Enters good := by
  intro object shape found
  rw [shape?, none] at found
  cases found

/-- Objects that keep their shapes are entered where they were. -/
theorem Enters.of_shape (enters : heap.Enters good)
    (same : ∀ object, after.shape? object = heap.shape? object) : after.Enters good := by
  intro object shape found
  rw [same] at found
  exact enters object shape found

/-- A new object may be added if it is no closure or one with an entry of that kind. -/
theorem Enters.push (enters : heap.Enters good) (new : ∀ entry ∈ made.entry?, good entry) :
    Enters good ⟨heap.objects.push made⟩ := by
  intro object shape found
  rw [shape?, Array.getElem?_push] at found
  split at found
  · obtain rfl : made.shape = shape := Option.some.inj found
    exact new
  · exact enters object shape found

end Heap

namespace Machine

open BytecodeMachine.Action

section Closures

variable {image : Image} {good : Nat → Prop} {α : Type} {instruction : Instruction}
  {m n : Machine Workspace} {flow : Flow}

/-- The closures of a machine's heap are entered at such offsets only. -/
def EntersOnly (good : Nat → Prop) (m : Machine Workspace) : Prop := m.host.heap.Enters good

/-- What keeps globals and heap keeps the entries of closures. -/
theorem maintains_entries_of_keeps {action : Action (Machine Workspace) α}
    (keeps : Keeps kept action) : Maintains (EntersOnly good) action := by
  apply keeps.maintains
  intro s t same enters
  have heap : t.host.heap = s.host.heap := congrArg Prod.snd same
  rw [EntersOnly, heap]
  exact enters

/-- Making an object is fine if its entry is, and so is failing to make it. The objects that were
there keep their places, and only the new one could bring in an entry. -/
theorem maintains_entries_alloc {made : Object} (new : ∀ entry ∈ made.entry?, good entry) :
    Maintains (EntersOnly good) (onHost (Workspace.onHeap (Heap.alloc made))) := by
  intro m enters
  simp only [Ends, onHost, Workspace.onHeap, Heap.alloc]
  by_cases room : m.host.heap.size < 4294967296
  · simp only [room, if_true]
    exact Heap.Enters.push enters new
  · simp only [room, if_false]
    exact enters

/-- An object that is no closure may always be made. -/
theorem maintains_entries_plain (made : Object) (plain : made.entry? = none) :
    Maintains (EntersOnly good) (onHost (Workspace.onHeap (Heap.alloc made))) :=
  maintains_entries_alloc (by simp [plain])

/-- Printing makes a string, which has no entry. What is printed has been looked at in the heap
before, but looking changes nothing there. -/
theorem maintains_entries_print (value : Value) :
    Maintains (EntersOnly good) (onHost (Workspace.print value)) := by
  intro m enters
  have made : Workspace.print value m.host =
      Workspace.onHeap (Heap.alloc (.string (m.host.heap.print value).toUTF8.data)) m.host := rfl
  have entered := maintains_entries_plain (.string (m.host.heap.print value).toUTF8.data) rfl m
    enters
  simp only [Ends, onHost, made] at entered ⊢
  exact entered

/-- Gathering words works on the stack, apart from the heap, and makes one object of them. So it is
as fine as making that object is, of whatever words. -/
theorem maintains_entries_gather (size : Nat) {make : Array Value → Action Workspace Ref}
    (makes : ∀ words, Maintains (EntersOnly good) (onHost (make words))) :
    Maintains (EntersOnly good) (gather size make) := by
  have reverses := stack_apart_kept.onStack (Stack.reverse_keeps_capacity size)
  have drops := stack_apart_kept.onStack (Stack.drop_keeps_capacity size)
  refine (maintains_entries_of_keeps reverses).bind fun _ => ?_
  refine (maintains_entries_of_keeps (keeps_observe _)).bind fun words => ?_
  refine (makes words).bind fun object => ?_
  exact maintains_entries_of_keeps (drops.bind fun _ => stack_apart_kept.push _)

/-- Only one of the instructions that make an object makes one that is entered. Its entry is the
operand, of which this is assumed. The other objects have no entry, and all other instructions keep
the heap. -/
theorem execute_maintains_entries (stores : instruction.isStore = false)
    (operand : ∀ address ∈ instruction.address?, ∀ offset,
      target image address = .ok offset → good offset) :
    Maintains (EntersOnly good) (execute (σ := Workspace) image instruction) := by
  have pushed (object : Ref) : Maintains (EntersOnly good)
      (do push (.ref object); pure Flow.next) :=
    maintains_entries_of_keeps ((stack_apart_kept.push _).bind fun _ => keeps_pure _)
  cases instruction with
  | string offset =>
    refine (maintains_entries_of_keeps (keeps_answer _)).bind fun bytes => ?_
    exact (maintains_entries_plain (.string bytes) rfl).bind pushed
  | aggregate name arity =>
    refine (maintains_entries_of_keeps (keeps_answer _)).bind fun size => ?_
    refine (maintains_entries_of_keeps (keeps_answer _)).bind fun bytes => ?_
    refine (maintains_entries_of_keeps (keeps_observe _)).bind fun tag => ?_
    refine Maintains.bind ?_ fun _ => maintains_pure _
    exact maintains_entries_gather size fun words =>
      maintains_entries_plain (.aggregate tag words) rfl
  | closure address captured =>
    refine Maintains.afterAnswer fun entry found => ?_
    refine (maintains_entries_of_keeps (keeps_observe _)).bind fun words => ?_
    have inside : good entry := operand address rfl entry found
    have makes : Maintains (EntersOnly good)
        (onHost (Workspace.onHeap (Heap.alloc (.closure entry words.toArray)))) := by
      apply maintains_entries_alloc
      rintro _ ⟨⟩
      exact inside
    exact makes.bind pushed
  | print =>
    refine (maintains_entries_of_keeps stack_apart_kept.pop).bind fun value => ?_
    exact (maintains_entries_print value).bind pushed
  | array length =>
    refine (maintains_entries_of_keeps (keeps_answer _)).bind fun size => ?_
    refine Maintains.bind ?_ fun _ => maintains_pure _
    exact maintains_entries_gather size fun words => maintains_entries_plain (.array words) rfl
  | store target => cases stores
  | storeThrough => cases stores
  | storeElement => cases stores
  | _ => exact maintains_entries_of_keeps (execute_keeps_kept image rfl rfl)

/-- Behind an instruction closures are entered where they were before, or at its operand. Stores
keep the shapes of all objects, which have the entries in them; the others make objects at most. -/
theorem execute_enters (operand : ∀ address ∈ instruction.address?, ∀ offset,
      target image address = .ok offset → good offset)
    (enters : EntersOnly good m) (done : execute image instruction m = .ok flow n) :
    EntersOnly good n := by
  cases stores : instruction.isStore with
  | true =>
    obtain ⟨_, _, _, footprint⟩ := execute_footprint stores done
    exact Heap.Enters.of_shape enters footprint.others.shape
  | false => exact (execute_maintains_entries stores operand m enters).of_ok done

end Closures

section Offsets

variable {σ : Type} {image : Image} {instruction : Instruction}

/-- A call goes on at the entry it is given. -/
theorem call_next {m n : Machine σ} {entry arguments dropped : Nat}
    (done : call entry arguments dropped m = .ok () n) : n.next = entry := by
  simp only [call, bind_eq_ok_iff] at done
  obtain ⟨_, _, _, _, _, _, _, _, _, _, _, _, _, _, _, _, _, _, ⟨⟩⟩ := done
  rfl

/-- Where an instruction goes on is out of reach unless it jumps. -/
theorem next_outOfReach (straight : instruction.isJump = false) :
    OutOfReach instruction fun m : Machine σ => m.next where
  stack _ _ _ := rfl
  host _ _ _ := rfl
  next jumps := by simp [straight] at jumps
  globals _ _ _ _ := rfl
  line _ _ _ := rfl
  running _ _ _ _ := rfl

/-- How the offset behind an instruction comes about. -/
inductive GoesOn (image : Image) (instruction : Instruction) (m n : Machine Workspace) : Prop
  | behind (same : n.next = m.next)
  | operand {address : Int32} (has : address ∈ instruction.address?)
      (found : target image address = .ok n.next)
  | closure {object : Ref} {shape : Shape} (found : m.host.heap.shape? object = some shape)
      (entered : shape.entry? = some n.next)
  | leave (leaves : instruction = .leave)

variable {m n : Machine Workspace} {flow : Flow} {address : Int32}

/-- A branch goes on at the address of its instruction, or just behind it if the word taken is not
fit. -/
theorem branch_goesOn {fit : Int32 → Bool} (has : address ∈ instruction.address?)
    (done : branch image address fit m = .ok () n) : GoesOn image instruction m n := by
  simp only [branch, jumpTo, answer, pop_eq_ok_iff, bind_eq_ok_iff, observe_eq_ok_iff] at done
  obtain ⟨_, _, ⟨stack, _, rfl⟩, number, _, ⟨_, rfl⟩, done⟩ := done
  split at done
  · simp only [bind_eq_ok_iff, observe_eq_ok_iff] at done
    obtain ⟨offset, _, ⟨found, rfl⟩, ⟨⟩⟩ := done
    exact .operand has found
  · cases done
    exact .behind rfl

/-- A closure is called at the offset in its shape. The entry is asked of the host, made a number
and made a target again, and comes out as it was. -/
theorem callClosure_goesOn {arguments : Nat} (done : callClosure image arguments m = .ok () n) :
    GoesOn image instruction m n := by
  simp only [callClosure, askHost, answer, bind_eq_ok_iff, observe_eq_ok_iff] at done
  obtain ⟨_, s, ⟨_, same⟩, closure, _, ⟨_, rfl⟩, entry, _, ⟨entered, rfl⟩, offset, _,
    ⟨found, rfl⟩, done⟩ := done
  rw [same] at entered done
  obtain ⟨number, fits, targeted⟩ := Answer.bind_eq_ok_iff.mp found
  obtain ⟨small, rfl⟩ := int32OfNat_eq_ok_iff.mp fits
  obtain ⟨_, rfl⟩ := target_eq_ok_iff.mp targeted
  rw [toNat_ofNat small] at done
  have entered : m.host.heap.entry closure = .ok entry := entered
  unfold Heap.entry at entered
  split at entered
  · cases entered
  · next captured got =>
    cases entered
    have there : m.host.heap.shape? closure = some (Object.closure entry captured).shape := by
      rw [Heap.shape?, Heap.get_eq_ok_iff.mp got]
      rfl
    apply GoesOn.closure there
    rw [call_next done]
    rfl
  · cases entered

/-- An instruction goes on in one of these ways whenever it succeeds. Jumps, branches and calls go
to their operands or to an entry; for all others the next offset is out of reach. -/
theorem execute_goesOn (done : execute image instruction m = .ok flow n) :
    GoesOn image instruction m n := by
  cases instruction with
  | jump address =>
    simp only [execute, jumpTo, answer, bind_eq_ok_iff, observe_eq_ok_iff] at done
    obtain ⟨offset, _, ⟨found, rfl⟩, _, _, ⟨⟩, ⟨⟩⟩ := done
    exact .operand rfl found
  | jumpIfZero address =>
    simp only [execute, bind_eq_ok_iff] at done
    obtain ⟨_, _, branched, ⟨⟩⟩ := done
    exact branch_goesOn rfl branched
  | jumpUnlessZero address =>
    simp only [execute, bind_eq_ok_iff] at done
    obtain ⟨_, _, branched, ⟨⟩⟩ := done
    exact branch_goesOn rfl branched
  | call address arguments =>
    simp only [execute, answer, bind_eq_ok_iff, observe_eq_ok_iff] at done
    obtain ⟨_, _, ⟨_, rfl⟩, offset, _, ⟨found, rfl⟩, _, _, called, ⟨⟩⟩ := done
    rw [← call_next called] at found
    exact .operand rfl found
  | callClosure arguments =>
    simp only [execute, answer, bind_eq_ok_iff, observe_eq_ok_iff] at done
    obtain ⟨_, _, ⟨_, rfl⟩, _, _, called, ⟨⟩⟩ := done
    exact callClosure_goesOn called
  | leave => exact .leave rfl
  | _ => exact .behind ((execute_keeps (next_outOfReach rfl) image).of_ok done)

end Offsets

end Machine

end BytecodeMachine
