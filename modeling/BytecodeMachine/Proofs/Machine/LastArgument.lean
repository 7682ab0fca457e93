import BytecodeMachine.Host.Workspace
import BytecodeMachine.Instruction.Encode
import BytecodeMachine.Proofs.Heap.Access
import BytecodeMachine.Proofs.Machine.Progress
import BytecodeMachine.Proofs.Machine.Variables
import BytecodeMachine.Proofs.Stack.Live
/-!
# The last argument

The captured variables of a function are found behind its last argument, which for a function
that has been called as a closure is the closure. Without a last argument, or with one that is
not a reference, every instruction that has to do with a captured variable faults: loading it,
taking its place, storing into it and capturing it once more.

A reference is taken as it is. If it leads to an object that is not a closure, captured
variables are words of that object, counted from its second one.
-/
namespace BytecodeMachine

/-- Instructions that have to find a captured variable. -/
def Instruction.usesCaptures : Instruction → Bool
  | .load name | .loadPlace name | .store name => name.storage = .captures
  | .closure _ captured => captured.any fun name => name.storage = .captures
  | _ => false

namespace Machine

open BytecodeMachine.Action

variable {σ : Type} {m n : Machine σ} {image : Image} {instruction : Instruction} {object : Ref}
  {name : Variable} {found : Slot} {value : Value} {flow : Flow} {behind : Nat}

/-- The word of the last argument. It is there if the word behind the frame pointer is a positive
number of arguments and the stack goes on so far. -/
def lastArgument? (m : Machine σ) : Option Value :=
  match m.stack.get (m.frame + 1) with
  | .ok (.scalar count) =>
    if 0 < count then (m.stack.get (m.frame + 3 + (count.toInt.toNat - 1))).toOption else none
  | _ => none

/-- The running closure is the last argument, if that is a reference. Whether the reference leads
to a closure is not asked at all. -/
theorem runningClosure_eq_ok_iff_lastArgument? :
    m.runningClosure = .ok object ↔ m.lastArgument? = some (.ref object) := by
  rw [runningClosure_eq_ok_iff, lastArgument?]
  constructor
  · rintro ⟨count, counted, positive, last⟩
    simp only [counted, positive, if_true, last, Except.toOption]
  · intro last
    split at last
    · next count counted =>
      split at last
      · next positive =>
        refine ⟨count, counted, positive, ?_⟩
        cases got : m.stack.get (m.frame + 3 + (count.toInt.toNat - 1)) with
        | ok word =>
          rw [got] at last
          cases last
          rfl
        | error cause =>
          rw [got] at last
          cases last
      · cases last
    · cases last

/-- Where there is a place for a captured variable, there is something that it is captured in. -/
theorem exists_runningClosure (captured : name.storage = .captures)
    (placed : m.place name = .ok found) : ∃ object, m.runningClosure = .ok object := by
  obtain ⟨storage, index⟩ := name
  obtain rfl : storage = .captures := captured
  obtain ⟨_, object, runs, _⟩ := place_capture_eq_ok_iff.mp placed
  exact ⟨object, runs⟩

variable [Host σ]

/-- An instruction that has to find a captured variable succeeds only where there is something to
find it in. -/
theorem exists_runningClosure_of_execute (uses : instruction.usesCaptures = true)
    (done : execute image instruction m = .ok flow n) :
    ∃ object, m.runningClosure = .ok object := by
  have loaded {name : Variable} {value : Value} (captured : name.storage = .captures)
      (loads : m.load name = .ok value) : ∃ object, m.runningClosure = .ok object := by
    obtain ⟨_, placed, _⟩ := load_eq_ok_iff.mp loads
    exact exists_runningClosure captured placed
  cases instruction with
  | load name =>
    simp only [execute, bind_eq_ok_iff, observe_eq_ok_iff] at done
    obtain ⟨value, _, ⟨loads, _⟩, _⟩ := done
    exact loaded (of_decide_eq_true uses) loads
  | loadPlace name =>
    simp only [execute, bind_eq_ok_iff, observe_eq_ok_iff] at done
    obtain ⟨place, _, ⟨placed, _⟩, _⟩ := done
    exact exists_runningClosure (of_decide_eq_true uses) placed
  | store name =>
    simp only [execute, store, bind_eq_ok_iff, observe_eq_ok_iff] at done
    obtain ⟨value, s, ⟨_, same⟩, _, _, ⟨place, _, ⟨placed, _⟩, _⟩, _⟩ := done
    rw [same] at placed
    exact exists_runningClosure (of_decide_eq_true uses) placed
  | closure address captured =>
    simp only [execute, answer, bind_eq_ok_iff, observe_eq_ok_iff] at done
    obtain ⟨entry, s, ⟨_, same⟩, values, _, ⟨loads, _⟩, _⟩ := done
    rw [same] at loads
    obtain ⟨name, member, isCapture⟩ := List.any_eq_true.mp uses
    obtain ⟨index, there⟩ := List.getElem?_of_mem member
    obtain ⟨_, _, loads⟩ := (loadAll_eq_ok_iff.mp loads).2 index name there
    exact loaded (of_decide_eq_true isCapture) loads
  | _ => cases uses

/-- Captured variables are words of the object, from the second one on. Whatever the running object
is, the place of a captured variable is a raw field of it, and behind the first one raw fields are
words. -/
theorem load_capture_iff_of_runs {m : Machine Workspace} {held : Object} {index : Int32}
    (runs : m.runningClosure = .ok object)
    (leads : m.host.heap.objects[object.index]? = some held) :
    m.load ⟨.captures, index⟩ = .ok value ↔
      0 ≤ index ∧ held.word? (index.toInt.toNat + 1) = some value := by
  have field : m.readSlot (.field object (index.toInt.toNat + 1)) = .ok value ↔
      held.word? (index.toInt.toNat + 1) = some value := by
    change Heap.field object (index.toInt.toNat + 1) m.host.heap = .ok value ↔ _
    rw [Heap.field_succ_eq_ok_iff, Heap.word?, leads]
    rfl
  rw [load_eq_ok_iff]
  constructor
  · rintro ⟨_, placed, read⟩
    obtain ⟨positive, rfl⟩ := (place_capture_iff_of_runs runs).mp placed
    exact ⟨positive, field.mp read⟩
  · rintro ⟨positive, there⟩
    exact ⟨_, (place_capture_iff_of_runs runs).mpr ⟨positive, rfl⟩, field.mpr there⟩

/-- Captured variables are found only behind a last argument that is a reference: without one every
instruction that has to find a captured variable faults. With one they are the words of the
object that it leads to, from the second one on, and whether that is a closure makes no
difference. -/
theorem captures_need_a_reference (m : Machine Workspace) :
    (∀ image instruction behind, fetch image m.next = .ok (instruction, behind) →
      instruction.usesCaptures = true → (∀ object, m.lastArgument? ≠ some (.ref object)) →
      ∃ cause n, advance image m = .error cause n) ∧
    ∀ object held, m.lastArgument? = some (.ref object) →
      m.host.heap.objects[object.index]? = some held → ∀ index : Int32,
      (∀ place, m.place ⟨.captures, index⟩ = .ok place ↔
        0 ≤ index ∧ place = .field object (index.toInt.toNat + 1)) ∧
      ∀ value, m.load ⟨.captures, index⟩ = .ok value ↔
        0 ≤ index ∧ held.word? (index.toInt.toNat + 1) = some value := by
  constructor
  · intro image instruction behind fetched uses none
    cases ended : advance image m with
    | error cause n => exact ⟨cause, n, rfl⟩
    | ok flow n =>
      obtain ⟨object, runs⟩ :=
        exists_runningClosure_of_execute uses (executed_of_advance fetched ended)
      exact absurd (runningClosure_eq_ok_iff_lastArgument?.mp runs) (none object)
  · intro object held last leads index
    have runs := runningClosure_eq_ok_iff_lastArgument?.mpr last
    exact ⟨fun place => place_capture_iff_of_runs runs,
      fun value => load_capture_iff_of_runs runs leads⟩

/-- A program that calls a function with an array as its only argument. The function loads a
captured variable. -/
def arrayArgument : Image where
  strings := #[]
  publics := []
  code := (([.enter 2 0, .constant 5, .constant 6, .array 2, .call 34 1, .stop, .enter 1 0,
    .load ⟨.captures, 0⟩, .stop] : List Instruction).flatMap Instruction.encode).toArray
  globals := 0

/-- A program that loads a captured variable in the frame at the bottom, where both arguments are
zero. -/
def numberArgument : Image where
  strings := #[]
  publics := []
  code := (([.enter 2 0, .load ⟨.captures, 0⟩, .stop] : List Instruction).flatMap
    Instruction.encode).toArray
  globals := 0

/-- Behind a number there is no captured variable; behind an array there is its second element.
Both are states that a program comes to. -/
theorem captures_need_a_reference_numberArgument :
    (∃ m cause n, Reachable numberArgument 16 (Workspace.ofInput [] {}) m ∧
      m.lastArgument? = some (.scalar 0) ∧ advance numberArgument m = .error cause n) ∧
    ∃ m, Reachable arrayArgument 16 (Workspace.ofInput [] {}) m ∧
      m.lastArgument? = some (.ref ⟨0⟩) ∧ m.load ⟨.captures, 0⟩ = .ok (.scalar 6) := by
  constructor
  · obtain ⟨first, made, next, last⟩ :
        ∃ first,
          (Machine.start numberArgument 16 .boundless (Workspace.ofInput [] {})).2 = .ok first ∧
          (afterTurns numberArgument 1 first).next = 9 ∧
          (afterTurns numberArgument 1 first).lastArgument? = some (.scalar 0) :=
      ⟨_, rfl, by decide +kernel, by decide +kernel⟩
    have fetched : fetch numberArgument (afterTurns numberArgument 1 first).next =
        .ok (.load ⟨.captures, 0⟩, 14) := by
      rw [next]
      rfl
    have none object : (afterTurns numberArgument 1 first).lastArgument? ≠ some (.ref object) := by
      rw [last]
      rintro ⟨⟩
    obtain ⟨cause, n, faulted⟩ := (captures_need_a_reference _).1 _ _ _ fetched rfl none
    exact ⟨_, cause, n, reachable_iff_afterTurns.mpr ⟨_, first, 1, made, rfl⟩, last, faulted⟩
  · obtain ⟨first, made, last, leads⟩ :
        ∃ first,
          (Machine.start arrayArgument 16 .boundless (Workspace.ofInput [] {})).2 = .ok first ∧
          (afterTurns arrayArgument 6 first).lastArgument? = some (.ref ⟨0⟩) ∧
          (afterTurns arrayArgument 6 first).host.heap.objects[0]? =
            some (.array #[.scalar 5, .scalar 6]) :=
      ⟨_, rfl, by decide +kernel, by decide +kernel⟩
    have loads := ((captures_need_a_reference _).2 _ _ last leads 0).2
    exact ⟨_, reachable_iff_afterTurns.mpr ⟨_, first, 6, made, rfl⟩, last,
      (loads _).mpr ⟨by decide, rfl⟩⟩

/-- A function whose last argument is an array loads a captured variable without a fault. What it
gets is the second element of the array. -/
theorem captures_of_an_array_arrayArgument :
    ∃ m n, Reachable arrayArgument 16 (Workspace.ofInput [] {}) m ∧
      m.lastArgument? = some (.ref ⟨0⟩) ∧
      m.host.heap.objects[0]? = some (.array #[.scalar 5, .scalar 6]) ∧
      (∃ behind, fetch arrayArgument m.next = .ok (.load ⟨.captures, 0⟩, behind)) ∧
      advance arrayArgument m = .ok .next n ∧ n.stack.peek 0 = .ok (.scalar 6) := by
  obtain ⟨first, made, executes, last, leads, loaded⟩ :
      ∃ first, (Machine.start arrayArgument 16 .boundless (Workspace.ofInput [] {})).2 = .ok first ∧
        executes? arrayArgument (afterTurns arrayArgument 6 first) =
          some (.load ⟨.captures, 0⟩) ∧
        (afterTurns arrayArgument 6 first).lastArgument? = some (.ref ⟨0⟩) ∧
        (afterTurns arrayArgument 6 first).host.heap.objects[0]? =
          some (.array #[.scalar 5, .scalar 6]) ∧
        (afterTurns arrayArgument 7 first).stack.live.toList[0]? = some (.scalar 6) :=
    ⟨_, rfl, by decide +kernel, by decide +kernel, by decide +kernel, by decide +kernel⟩
  obtain ⟨fetched, advanced⟩ := executes?_eq_some executes
  exact ⟨_, _, reachable_iff_afterTurns.mpr ⟨_, first, 6, made, rfl⟩, last, leads, fetched,
    advanced, Stack.peek_eq_ok_iff_live.mpr loaded⟩

end Machine

end BytecodeMachine
