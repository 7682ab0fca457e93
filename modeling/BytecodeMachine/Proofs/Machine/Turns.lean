import BytecodeMachine.Proofs.Machine.Refusal
import BytecodeMachine.Proofs.Machine.Registers
import BytecodeMachine.Proofs.Stack.Live
/-!
# Turns on live words

Where a machine stands, as far as a program without frames can see: the next offset, the live
words and the number of objects. For instructions that such a program is made of, each lemma
gives one turn of a machine that has read one: if there are the words and the room for it, the
machine stands behind it with the words that it leaves.

Words that are not live are left open, so a loop comes back to where it stood.
-/
namespace BytecodeMachine.Machine

open BytecodeMachine.Action

variable {image : Image} {m n : Machine Workspace} {capacity offset behind objects : Nat}
  {words : List Value} {instruction : Instruction}

/-- The next offset, the live words with the top first, and the number of objects. -/
structure Stands (capacity offset : Nat) (words : List Value) (objects : Nat)
    (m : Machine Workspace) : Prop where
  capacity : m.stack.capacity = capacity
  next : m.next = offset
  live : m.stack.live.toList = words
  objects : m.host.heap.size = objects

/-- A machine comes to a state that is like this. -/
def Leads (image : Image) (m : Machine Workspace) (reached : Machine Workspace → Prop) : Prop :=
  ∃ n, Later image m n ∧ reached n

/-- Ways are put together: the turns of the first, and then those of the second. -/
theorem Leads.trans {middle reached : Machine Workspace → Prop} (first : Leads image m middle)
    (second : ∀ n, middle n → Leads image n reached) : Leads image m reached := by
  obtain ⟨s, later, found⟩ := first
  obtain ⟨n, more, done⟩ := second s found
  exact ⟨n, later.trans more, done⟩

/-- One turn, if the instruction that has been read succeeds. The machine stands where it was read,
and what is read lies inside the code. -/
theorem Stands.turn {flow : Flow} {reached : Machine Workspace → Prop}
    (stands : Stands capacity offset words objects m)
    (fetched : fetch image offset = .ok (instruction, behind))
    (executed : execute image instruction { m with next := behind } = .ok flow n)
    (done : reached n) : Leads image m reached := by
  rw [← stands.next] at fetched
  have inside := fetch_inside fetched
  have advanced := advance_eq_ok_iff.mpr ⟨instruction, behind, by omega, fetched, executed⟩
  exact ⟨n, Later.refl.turn advanced, done⟩

/-! ### What an instruction is made of -/

/-- Only the next offset is changed by going on behind an instruction. -/
theorem Stands.moved (stands : Stands capacity offset words objects m) (next : Nat) :
    Stands capacity next words objects { m with next } :=
  ⟨stands.capacity, rfl, stands.live, stands.objects⟩

/-- Something done to the stack, by what it leaves of the live words. -/
theorem Stands.onStack {α : Type} {action : Action Stack α} {a : α} {stack : Stack}
    {left : List Value} (stands : Stands capacity offset words objects m)
    (keeps : Keeps Stack.capacity action) (done : action m.stack = .ok a stack)
    (live : stack.live.toList = left) :
    ∃ n, Machine.onStack action m = .ok a n ∧ Stands capacity offset left objects n := by
  have same : stack.capacity = capacity := (keeps.of_ok done).trans stands.capacity
  exact ⟨{ m with stack }, onStack_eq_ok_iff.mpr ⟨stack, done, rfl⟩, same, stands.next, live,
    stands.objects⟩

/-- With room for a word, a value can be pushed and is the first live one then. The words that are
live are counted by the list, and the capacity does not change. -/
theorem Stands.push (stands : Stands capacity offset words objects m) (value : Value)
    (room : words.length < capacity) :
    ∃ n, Machine.push value m = .ok () n ∧ Stands capacity offset (value :: words) objects n := by
  have space : m.stack.live.toList.length < m.stack.capacity := by
    rw [stands.live, stands.capacity]
    exact room
  obtain ⟨stack, pushed⟩ := Stack.push_room value space
  have live : stack.live.toList = value :: words := by
    rw [Stack.push_live pushed, stands.live]
  exact stands.onStack (Stack.push_keeps_capacity value) pushed live

/-- If there is a live word it can be taken, and the others are live still. -/
theorem Stands.pop {value : Value} (stands : Stands capacity offset (value :: words) objects m) :
    ∃ n, Machine.pop m = .ok value n ∧ Stands capacity offset words objects n := by
  obtain ⟨stack, popped, live⟩ := Stack.pop_present stands.live
  exact stands.onStack Stack.pop_keeps_capacity popped live

section Elements

variable {elements : List Value} {size : Nat}
  (stands : Stands capacity offset (elements ++ words) objects m) (all : elements.length = size)
include stands all

/-- As many words as the elements are live, since the elements are the first of them. -/
theorem Stands.enough : size ≤ m.stack.live.toList.length := by
  rw [stands.live, List.length_append]
  omega

/-- So they can be turned round, with the words below them unchanged. -/
theorem Stands.reverse : ∃ n, Machine.onStack (Stack.reverse size) m = .ok () n ∧
    Stands capacity offset (elements.reverse ++ words) objects n := by
  obtain ⟨stack, reversed⟩ := Stack.reverse_enough (stands.enough all)
  have live : stack.live.toList = elements.reverse ++ words := by
    rw [Stack.reverse_live reversed, stands.live, List.take_left' all, List.drop_left' all]
  exact stands.onStack (Stack.reverse_keeps_capacity size) reversed live

/-- And they can be shown. -/
theorem Stands.window : ∃ found, m.stack.window size = .ok found :=
  Stack.window_enough (stands.enough all)

/-- And they can be dropped, which leaves the words below. -/
theorem Stands.discard : ∃ n, Machine.onStack (Stack.drop size) m = .ok () n ∧
    Stands capacity offset words objects n := by
  obtain ⟨stack, dropped⟩ := Stack.drop_enough (stands.enough all)
  have live : stack.live.toList = words := by
    rw [Stack.drop_live dropped, stands.live, List.drop_left' all]
  exact stands.onStack (Stack.drop_keeps_capacity size) dropped live

end Elements

/-- With a number left for it an object can be made. It is known by the number of objects before
it. -/
theorem Stands.alloc (stands : Stands capacity offset words objects m) (made : Object)
    (room : objects < 4294967296) :
    ∃ n, onHost (Workspace.onHeap (Heap.alloc made)) m = .ok ⟨objects⟩ n ∧
      Stands capacity offset words (objects + 1) n := by
  have allocated : Heap.alloc made m.host.heap =
      .ok ⟨objects⟩ ⟨m.host.heap.objects.push made⟩ := by
    simp only [Heap.alloc, stands.objects, room, if_true]
  refine ⟨_, onHost_eq_ok_iff.mpr ⟨_, onHeap_eq_ok_iff.mpr ⟨_, allocated, rfl⟩, rfl⟩,
    stands.capacity, stands.next, stands.live, ?_⟩
  dsimp only
  rw [Heap.size, Array.size_push]
  exact congrArg (· + 1) stands.objects

/-! ### Instructions -/

/-- One turn: a constant is pushed. -/
theorem Stands.constant {number : Int32} (stands : Stands capacity offset words objects m)
    (fetched : fetch image offset = .ok (.constant number, behind))
    (room : words.length < capacity) :
    Leads image m (Stands capacity behind (.ofInt number :: words) objects) := by
  obtain ⟨n, pushed, standing⟩ := (stands.moved behind).push (.ofInt number) room
  exact stands.turn fetched (bind_eq_ok_iff.mpr ⟨(), n, pushed, rfl⟩) standing

/-- One turn: the first word is dropped. -/
theorem Stands.drop {value : Value} (stands : Stands capacity offset (value :: words) objects m)
    (fetched : fetch image offset = .ok (.drop, behind)) :
    Leads image m (Stands capacity behind words objects) := by
  obtain ⟨n, popped, standing⟩ := (stands.moved behind).pop
  exact stands.turn fetched (bind_eq_ok_iff.mpr ⟨value, n, popped, rfl⟩) standing

/-- One turn: the first word is there twice. It is looked at in place and pushed, so one free word
is needed. -/
theorem Stands.duplicate {value : Value}
    (stands : Stands capacity offset (value :: words) objects m)
    (fetched : fetch image offset = .ok (.duplicate, behind))
    (room : words.length + 1 < capacity) :
    Leads image m (Stands capacity behind (value :: value :: words) objects) := by
  have peeked : m.stack.peek 0 = .ok value := by
    rw [Stack.peek_eq_ok_iff_live, stands.live]
    rfl
  obtain ⟨n, pushed, standing⟩ := (stands.moved behind).push value room
  have looked : observe (fun m : Machine Workspace => m.stack.peek 0) { m with next := behind } =
      .ok value { m with next := behind } := observe_eq_ok_iff.mpr ⟨peeked, rfl⟩
  exact stands.turn fetched (bind_eq_ok_iff.mpr ⟨value, _, looked,
    bind_eq_ok_iff.mpr ⟨(), n, pushed, rfl⟩⟩) standing

/-- Both operands are taken, and the left one is the lower one. The result needs no room of its own
beyond that of the operands. -/
theorem Stands.binary {operator : Operator} {x y result : Value}
    (stands : Stands capacity offset (y :: x :: words) objects m)
    (fetched : fetch image offset = .ok (.binary operator, behind))
    (applied : operator.apply x y = .ok result) (room : words.length < capacity) :
    Leads image m (Stands capacity behind (result :: words) objects) := by
  obtain ⟨s, poppedY, standing⟩ := (stands.moved behind).pop
  obtain ⟨t, poppedX, standing⟩ := standing.pop
  obtain ⟨n, pushed, standing⟩ := standing.push result room
  exact stands.turn fetched (bind_eq_ok_iff.mpr ⟨y, s, poppedY, bind_eq_ok_iff.mpr ⟨x, t, poppedX,
    bind_eq_ok_iff.mpr ⟨result, t, observe_eq_ok_iff.mpr ⟨applied, rfl⟩,
      bind_eq_ok_iff.mpr ⟨(), n, pushed, rfl⟩⟩⟩⟩) standing

/-- One turn: the machine goes on at the target, and the stack stays. -/
theorem Stands.jump {address : Int32} {next : Nat}
    (stands : Stands capacity offset words objects m)
    (fetched : fetch image offset = .ok (.jump address, behind))
    (targeted : target image address = .ok next) :
    Leads image m (Stands capacity next words objects) :=
  stands.turn fetched (bind_eq_ok_iff.mpr ⟨next, _, observe_eq_ok_iff.mpr ⟨targeted, rfl⟩,
    bind_eq_ok_iff.mpr ⟨(), _, rfl, rfl⟩⟩) (stands.moved next)

/-- A branch takes the number that it looks at, and goes to its target unless that is zero. Both
outcomes are one statement, in which the offset depends on the number. -/
theorem Stands.jumpUnlessZero {address number : Int32} {next : Nat}
    (stands : Stands capacity offset (.scalar number :: words) objects m)
    (fetched : fetch image offset = .ok (.jumpUnlessZero address, behind))
    (targeted : target image address = .ok next) :
    Leads image m (Stands capacity (if number = 0 then behind else next) words objects) := by
  obtain ⟨s, popped, standing⟩ := (stands.moved behind).pop
  have checked : Answer.during .condition (Value.scalar number).expectScalar = .ok number := rfl
  by_cases zero : number = 0
  · rw [if_pos zero]
    refine stands.turn fetched (bind_eq_ok_iff.mpr ⟨(), s, bind_eq_ok_iff.mpr ⟨_, s, popped,
      bind_eq_ok_iff.mpr ⟨number, s, observe_eq_ok_iff.mpr ⟨checked, rfl⟩, ?_⟩⟩, rfl⟩) standing
    simp only [zero, ne_eq, not_true_eq_false, decide_false, Bool.false_eq_true, if_false]
    rfl
  · rw [if_neg zero]
    refine stands.turn fetched (bind_eq_ok_iff.mpr ⟨(), { s with next },
      bind_eq_ok_iff.mpr ⟨_, s, popped, bind_eq_ok_iff.mpr ⟨number, s,
        observe_eq_ok_iff.mpr ⟨checked, rfl⟩, ?_⟩⟩, rfl⟩) (standing.moved next)
    simp only [zero, ne_eq, not_false_eq_true, decide_true, if_true]
    exact bind_eq_ok_iff.mpr ⟨next, s, observe_eq_ok_iff.mpr ⟨targeted, rfl⟩, rfl⟩

/-- An array takes its elements and leaves a reference to itself, if the heap has room for it. The
turn is followed through its five parts: the elements are turned round, read, made an object,
dropped, and the reference is pushed. -/
theorem Stands.array {length : Int32} {size : Nat} {elements : List Value}
    (stands : Stands capacity offset (elements ++ words) objects m)
    (fetched : fetch image offset = .ok (.array length, behind))
    (counted : count length = .ok size) (all : elements.length = size)
    (space : words.length < capacity) (room : objects < 4294967296) :
    Leads image m (Stands capacity behind (.ref ⟨objects⟩ :: words) (objects + 1)) := by
  obtain ⟨s, reversed, standing⟩ := (stands.moved behind).reverse all
  have stillAll : elements.reverse.length = size := by rw [List.length_reverse, all]
  obtain ⟨found, seen⟩ := standing.window stillAll
  obtain ⟨t, made, standing⟩ := standing.alloc (.array found) room
  obtain ⟨u, dropped, standing⟩ := standing.discard stillAll
  obtain ⟨n, pushed, standing⟩ := standing.push (.ref ⟨objects⟩) space
  refine stands.turn fetched (bind_eq_ok_iff.mpr ⟨size, _, observe_eq_ok_iff.mpr ⟨counted, rfl⟩,
    bind_eq_ok_iff.mpr ⟨(), n, ?_, rfl⟩⟩) standing
  exact bind_eq_ok_iff.mpr ⟨(), s, reversed, bind_eq_ok_iff.mpr ⟨found, s,
    observe_eq_ok_iff.mpr ⟨seen, rfl⟩, bind_eq_ok_iff.mpr ⟨_, t, made, bind_eq_ok_iff.mpr
      ⟨(), u, dropped, pushed⟩⟩⟩⟩

/-- If the heap has no room for it, an array faults and leaves its elements turned round. The first
two parts of the turn succeed and the third is refused, and nothing puts the elements back. -/
theorem Stands.array_full {length : Int32} {size : Nat} {elements : List Value}
    (stands : Stands capacity offset (elements ++ words) objects m)
    (fetched : fetch image offset = .ok (.array length, behind))
    (counted : count length = .ok size) (all : elements.length = size)
    (full : 4294967296 ≤ objects) :
    ∃ cause n, advance image m = .error cause n ∧
      Stands capacity behind (elements.reverse ++ words) objects n := by
  obtain ⟨s, reversed, standing⟩ := (stands.moved behind).reverse all
  obtain ⟨found, seen⟩ := standing.window (by rw [List.length_reverse, all])
  have refused : Heap.alloc (.array found) s.host.heap =
      .error (.heap (.exhausted s.host.heap.size)) s.host.heap := by
    rw [← standing.objects] at full
    simp only [Heap.alloc, Nat.not_lt.mpr full, if_false]
  have failed : onHost (Workspace.onHeap (Heap.alloc (.array found))) s =
      .error (.heap (.exhausted s.host.heap.size)) s := by
    simp only [onHost, Workspace.onHeap, refused]
  have executed : execute image (.array length) { m with next := behind } =
      .error (.heap (.exhausted s.host.heap.size)) s := by
    refine bind_eq_error_iff.mpr (.inr ⟨size, _, observe_eq_ok_iff.mpr ⟨counted, rfl⟩, ?_⟩)
    refine bind_eq_error_iff.mpr (.inl (bind_eq_error_iff.mpr (.inr ⟨(), s, reversed, ?_⟩)))
    refine bind_eq_error_iff.mpr (.inr ⟨found, s, observe_eq_ok_iff.mpr ⟨seen, rfl⟩, ?_⟩)
    exact bind_eq_error_iff.mpr (.inl failed)
  rw [← stands.next] at fetched
  have inside := fetch_inside fetched
  obtain ⟨reported, advanced⟩ := advance_of_fault (by omega) fetched executed
  exact ⟨reported, s, advanced, standing⟩

end BytecodeMachine.Machine
