import BytecodeMachine.Host.Workspace
import BytecodeMachine.Proofs.Heap.Shape
import BytecodeMachine.Proofs.Machine.Reach
/-!
# Refused requests

Single requests to the stack, to the globals and to a workspace do nothing at all when they are
refused. So the whole machine is as it was behind a fault of one of them, and what a fault
of an instruction leaves behind is what was done by the requests before it.
-/
namespace BytecodeMachine

open BytecodeMachine.Action

namespace Machine

variable {σ α γ : Type}

/-- What leaves everything as it was leaves every part as it was. -/
theorem spares_of_id {part : Machine σ → γ} {action : Action (Machine σ) α}
    (spares : Spares id action) : Spares part action :=
  fun m => (spares m).mono (fun _ _ done => done) fun _ _ same => congrArg part same

/-- If the stack is left alone by a fault, then so is the machine. -/
theorem onStack_spares {action : Action Stack α} (spares : Spares id action) :
    Spares id (onStack action : Action (Machine σ) α) := fun m =>
  onStack_ends ((spares m.stack).mono (fun _ _ done => done) fun _ _ same =>
    congrArg (fun stack => { m with stack }) same)

/-- If the host is left alone by a fault, then so is the machine. -/
theorem onHost_spares {action : Action σ α} (spares : Spares id action) :
    Spares id (onHost action) := fun m =>
  onHost_ends ((spares m.host).mono (fun _ _ done => done) fun _ _ same =>
    congrArg (fun host => { m with host }) same)

/-- A refused push pushes nothing. -/
theorem push_spares (value : Value) : Spares id (push value : Action (Machine σ) Unit) :=
  onStack_spares (Stack.push_spares value)

/-- A global that is not there is not written. -/
theorem writeGlobal_spares (index : Nat) (value : Value) :
    Spares id (writeGlobal index value : Action (Machine σ) Unit) := by
  intro m
  by_cases inside : index < m.globals.size
  · simp only [Ends, writeGlobal, inside, if_true]
  · simp only [Ends, writeGlobal, inside, if_false]

/-- If the heap is left alone by a fault, then so is the host. A workspace hands its heap to the
action and takes back what it leaves; its other parts are not shown to it. -/
theorem onHeap_spares {action : Action Heap α} (spares : Spares id action) :
    Spares id (Workspace.onHeap action) := by
  intro host
  have same := spares host.heap
  unfold Ends at same
  simp only [Ends, Workspace.onHeap]
  cases ended : action host.heap with
  | ok a heap => trivial
  | error cause heap =>
    rw [ended] at same
    obtain rfl : heap = host.heap := same
    rfl

/-- A request to the heap that is granted changes the heap alone. The host is put together again
from the heap that has been left and its other parts. -/
theorem onHeap_eq_ok_iff {α : Type} {action : Action Heap α} {host after : Workspace} {a : α} :
    Workspace.onHeap action host = .ok a after ↔
      ∃ heap, action host.heap = .ok a heap ∧ after = { host with heap } := by
  simp only [Workspace.onHeap]
  cases action host.heap with
  | ok found heap =>
    simp only [EStateM.Result.ok.injEq]
    constructor
    · rintro ⟨rfl, rfl⟩
      exact ⟨heap, ⟨rfl, rfl⟩, rfl⟩
    · rintro ⟨_, ⟨rfl, rfl⟩, rfl⟩
      exact ⟨rfl, rfl⟩
  | error cause heap => simp

/-- A refused write to a place writes nothing, wherever the place is. -/
theorem writeSlot_spares (place : Slot) (value : Value) :
    Spares id (writeSlot (σ := Workspace) place value) := by
  cases place with
  | global index => exact writeGlobal_spares index value
  | stack index => exact onStack_spares (Stack.set_spares index value)
  | field object index => exact onHost_spares (onHeap_spares (Heap.setField_spares _ _ _))

/-- Nor does storing through a word that is refused, or is no place. -/
theorem storeThrough_spares (target value : Value) :
    Spares id (storeThrough (σ := Workspace) target value) := by
  cases target with
  | slot place => exact writeSlot_spares place value
  | scalar number => exact (keeps_throw _).spares
  | ref object => exact (keeps_throw _).spares

/-- Nor does setting an element. -/
theorem setElement_spares (container : Value) (index : Int32) (value : Value) :
    Spares id (onHost (Host.setElement (σ := Workspace) container index value)) :=
  onHost_spares (onHeap_spares (Heap.setElement_spares _ _ _))

end Machine

end BytecodeMachine
