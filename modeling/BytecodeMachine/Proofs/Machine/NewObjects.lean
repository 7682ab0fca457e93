import BytecodeMachine.Proofs.Heap.Access
import BytecodeMachine.Proofs.Machine.Footprint
import BytecodeMachine.Proofs.Machine.References
/-!
# New objects

An object that is made gets the next reference. Objects are never removed, and none is made with
a reference that is in use: what a machine has kept anywhere before cannot be the new
reference. From then on the object keeps its shape, whatever runs.
-/
namespace BytecodeMachine.Machine

open BytecodeMachine.Action

variable {image : Image} {capacity : Nat} {m n s : Machine Workspace} {object : Ref}

/-- The machine with one more object. -/
def withObject (made : Object) (m : Machine Workspace) : Machine Workspace :=
  { m with host := { m.host with heap := ⟨m.host.heap.objects.push made⟩ } }

/-- An object that has been made is known by the number of those before it, and the machine has it
and is otherwise the same. -/
theorem alloc_eq_ok {made : Object}
    (done : onHost (Workspace.onHeap (Heap.alloc made)) m = .ok object n) :
    object = ⟨m.host.heap.size⟩ ∧ n = m.withObject made := by
  obtain ⟨_, asked, rfl⟩ := onHost_eq_ok_iff.mp done
  obtain ⟨_, allocated, rfl⟩ := onHeap_eq_ok_iff.mp asked
  obtain ⟨_, rfl, rfl⟩ := Heap.alloc_eq_ok_iff.mp allocated
  exact ⟨rfl, rfl⟩

/-- Its reference leads to it. -/
theorem leads_withObject (made : Object) (m : Machine Workspace) :
    (m.withObject made).host.heap.objects[m.host.heap.size]? = some made :=
  Array.getElem?_push_size

/-- Whatever runs, an object keeps its shape. -/
theorem Later.shape? {shape : Shape} (later : Later image m n)
    (found : m.host.heap.shape? object = some shape) :
    n.host.heap.shape? object = some shape := by
  induction later with
  | refl => exact found
  | turn _ advanced earlier => exact (advance_keeps_shape image object earlier).of_ok advanced
  | fault _ faulted earlier => exact (advance_keeps_shape image object earlier).of_error faulted

/-- The number of objects does not go down. If it did, the last object would be gone, but every
object that was there still has a shape. -/
theorem Later.size_le (later : Later image m n) : m.host.heap.size ≤ n.host.heap.size := by
  change m.host.heap.objects.size ≤ n.host.heap.objects.size
  refine Nat.le_of_not_lt fun fewer => ?_
  have last : m.host.heap.objects.size - 1 < m.host.heap.objects.size := by omega
  have there : m.host.heap.shape? ⟨m.host.heap.objects.size - 1⟩ =
      some m.host.heap.objects[m.host.heap.objects.size - 1].shape := by
    rw [Heap.shape?, Array.getElem?_eq_getElem last]
    rfl
  obtain ⟨found, leads, _⟩ := Option.map_eq_some_iff.mp (later.shape? there)
  have inside := (Array.getElem?_eq_some_iff.mp leads).1
  dsimp only at inside
  omega

/-- A reference that is not in use yet is nowhere in an earlier state. -/
theorem Reachable.not_contains_next {input : List UInt8} {sink : Sink}
    (reachable : Reachable image capacity (Workspace.ofInput input sink) s)
    (later : Later image s m) : ¬ s.Contains (.ref ⟨m.host.heap.size⟩) := by
  intro kept
  obtain ⟨objects, sound⟩ := reachable.sound
  have inside : m.host.heap.size < s.host.heap.size := sound.of_contains kept
  have grown := later.size_le
  omega

/-- The reference leads nowhere yet, and no machine on its way to `m` has kept it anywhere. -/
def Unused (image : Image) (object : Ref) (m : Machine Workspace) : Prop :=
  m.host.heap.objects[object.index]? = none ∧
    ∀ capacity input sink s, Reachable image capacity (Workspace.ofInput input sink) s →
      Later image s m → ¬ s.Contains (.ref object)

/-- No reachable machine has kept the reference that the next object will get, since references in
reachable machines lead to objects that are there. -/
theorem unused_next (image : Image) (m : Machine Workspace) :
    Unused image ⟨m.host.heap.size⟩ m :=
  ⟨Array.getElem?_eq_none (Nat.le_refl _),
    fun _ _ _ _ earlier later => earlier.not_contains_next later⟩

end BytecodeMachine.Machine
