import BytecodeMachine.Proofs.Machine.Refusal
/-!
# How the heap and the globals change

On a workspace the heap only grows, by one object at a time, and only five instructions make
one. Three instructions store; all others leave the globals and the objects that are there
as they were, whether they succeed or fault.

A store that faults has stored nothing. The last thing that the stores through a place do is to
put the stored word back on the stack, and there is room for it, since more words have been
taken.
-/
namespace BytecodeMachine.Machine

open BytecodeMachine.Action

variable {α β : Type} {m n : Machine Workspace} {instruction : Instruction}

/-- The globals and the heap, where words are kept beside the stack. -/
def kept (m : Machine Workspace) : Array Value × Heap := (m.globals, m.host.heap)

/-- Globals and heap are out of reach of an instruction that asks the host for nothing: stores,
which reach the globals, are requests as well. -/
theorem kept_outOfReach (quiet : instruction.isRequest = false) :
    OutOfReach instruction kept where
  stack _ _ _ := rfl
  host requests := by simp [quiet] at requests
  next _ _ _ := rfl
  globals stores := by simp [Instruction.isRequest_of_isStore stores] at quiet
  line _ _ _ := rfl
  running _ _ _ _ := rfl

/-- No operation on the stack reaches the globals or the heap. -/
theorem stack_apart_kept : OutOfReach .drop kept := kept_outOfReach rfl

/-- Reading and writing numbers is done on the console. -/
theorem onConsole_keeps_kept (action : Action Console α) :
    Keeps kept (onHost (Workspace.onConsole action)) := by
  intro m
  simp only [Ends, onHost, Workspace.onConsole]
  cases action m.host.console <;> rfl

/-- An instruction that makes no object and stores nothing keeps the globals and the heap. Reading
and writing numbers are the only ones of these that ask the host at all, and they stay with the
console. -/
theorem execute_keeps_kept (image : Image) (makes : instruction.isMaking = false)
    (stores : instruction.isStore = false) :
    Keeps kept (execute (σ := Workspace) image instruction) := by
  cases instruction with
  | readNumber =>
    exact (onConsole_keeps_kept _).bind fun _ => (stack_apart_kept.push _).bind fun _ =>
      keeps_pure _
  | writeNumber =>
    exact stack_apart_kept.pop.bind fun _ => (keeps_answer _).bind fun _ =>
      (onConsole_keeps_kept _).bind fun _ => (stack_apart_kept.push _).bind fun _ => keeps_pure _
  | string offset => cases makes
  | aggregate name arity => cases makes
  | closure address captured => cases makes
  | print => cases makes
  | array length => cases makes
  | store target => cases stores
  | storeThrough => cases stores
  | storeElement => cases stores
  | _ => exact execute_keeps (kept_outOfReach rfl) image

/-- The globals are the same, and at most one object has been made. -/
structure Grown (m n : Machine Workspace) : Prop where
  globals : n.globals = m.globals
  heap : ∃ added, n.host.heap.objects = m.host.heap.objects ++ added ∧ added.size ≤ 1

/-- If both are the same then nothing has been made. -/
theorem Grown.of_kept (same : kept n = kept m) : Grown m n := by
  simp only [kept, Prod.mk.injEq] at same
  obtain ⟨globals, heap⟩ := same
  refine ⟨globals, #[], ?_, Nat.zero_le _⟩
  rw [heap, Array.append_empty]

/-- However the action ends, the globals are the same and at most one object has been made. -/
def Grows (action : Action (Machine Workspace) α) : Prop :=
  ∀ m, action.Ends m (fun _ n => Grown m n) fun _ n => Grown m n

/-- What keeps globals and heap lets them grow by nothing. -/
theorem Grows.of_keeps {action : Action (Machine Workspace) α} (keeps : Keeps kept action) :
    Grows action := fun m =>
  (keeps m).mono (fun _ _ same => .of_kept same) fun _ _ same => .of_kept same

/-- The heap may be compared with an earlier one that is the same. -/
theorem Grown.after {s : Machine Workspace} (same : kept s = kept m) (grown : Grown s n) :
    Grown m n := by
  simp only [kept, Prod.mk.injEq] at same
  obtain ⟨globals, heap⟩ := same
  constructor
  · rw [grown.globals, globals]
  · rw [← heap]
    exact grown.heap

/-- Or with a later one that is the same. -/
theorem Grown.before {s : Machine Workspace} (grown : Grown m s) (same : kept n = kept s) :
    Grown m n := by
  simp only [kept, Prod.mk.injEq] at same
  obtain ⟨globals, heap⟩ := same
  constructor
  · rw [globals, grown.globals]
  · rw [heap]
    exact grown.heap

/-- A sequence grows as its second part does if the first one keeps globals and heap. -/
theorem Grows.after {first : Action (Machine Workspace) α}
    {next : α → Action (Machine Workspace) β} (keeps : Keeps kept first)
    (grows : ∀ a, Grows (next a)) : Grows (first >>= next) := by
  intro m
  refine Ends.bind ((keeps m).mono (fun _ _ same => same) fun _ _ same => .of_kept same) ?_
  intro a s same
  exact (grows a s).mono (fun _ _ grown => grown.after same) fun _ _ grown => grown.after same

/-- And as its first part does if the second one keeps them. The two together are enough, as no
instruction makes objects twice. -/
theorem Grows.before {first : Action (Machine Workspace) α}
    {next : α → Action (Machine Workspace) β} (grows : Grows first)
    (keeps : ∀ a, Keeps kept (next a)) : Grows (first >>= next) := by
  intro m
  refine Ends.bind (grows m) ?_
  intro a s grown
  exact (keeps a s).mono (fun _ _ same => grown.before same) fun _ _ same => grown.before same

/-- Making an object puts it at the end of the heap, if there is any room at all. -/
theorem alloc_grows (made : Object) : Grows (onHost (Workspace.onHeap (Heap.alloc made))) := by
  intro m
  simp only [Ends, onHost, Workspace.onHeap, Heap.alloc]
  by_cases room : m.host.heap.size < 4294967296
  · simp only [room, if_true]
    exact ⟨rfl, #[made], Array.push_eq_append, Nat.le_refl 1⟩
  · simp only [room, if_false]
    exact .of_kept rfl

/-- Printing makes one string, which is the text. -/
theorem print_grows (value : Value) : Grows (onHost (Workspace.print value)) := by
  intro m
  have made : Workspace.print value m.host =
      Workspace.onHeap (Heap.alloc (.string (m.host.heap.print value).toUTF8.data)) m.host := rfl
  have grown := alloc_grows (.string (m.host.heap.print value).toUTF8.data) m
  simp only [Ends, onHost, made] at grown ⊢
  exact grown

/-- Gathering words makes the one object that is made of them; the stack is apart from heap and
globals. -/
theorem gather_grows (size : Nat) {make : Array Value → Action Workspace Ref}
    (makes : ∀ words, Grows (onHost (make words))) : Grows (gather size make) := by
  refine Grows.after (stack_apart_kept.onStack (Stack.reverse_keeps_capacity size)) fun _ => ?_
  refine Grows.after (keeps_observe _) fun words => Grows.before (makes words) fun object => ?_
  exact (stack_apart_kept.onStack (Stack.drop_keeps_capacity size)).bind fun _ =>
    stack_apart_kept.push _

/-- An instruction that stores nothing makes one object at most, and changes nothing else in the
heap or among the globals. -/
theorem execute_grows (image : Image) (stores : instruction.isStore = false) :
    Grows (execute (σ := Workspace) image instruction) := by
  have pushed (object : Ref) : Keeps kept (do push (.ref object); pure Flow.next) :=
    (stack_apart_kept.push _).bind fun _ => keeps_pure _
  cases instruction with
  | string offset =>
    exact Grows.after (keeps_answer _) fun bytes => (alloc_grows (.string bytes)).before pushed
  | aggregate name arity =>
    refine Grows.after (keeps_answer _) fun size => Grows.after (keeps_answer _) fun bytes => ?_
    refine Grows.after (keeps_observe _) fun tag => ?_
    exact (gather_grows size fun words => alloc_grows (.aggregate tag words)).before fun _ =>
      keeps_pure _
  | closure address captured =>
    refine Grows.after (keeps_answer _) fun entry => Grows.after (keeps_observe _) fun words => ?_
    exact (alloc_grows (.closure entry words.toArray)).before pushed
  | print =>
    exact Grows.after stack_apart_kept.pop fun value => (print_grows value).before pushed
  | array length =>
    refine Grows.after (keeps_answer _) fun size => ?_
    exact (gather_grows size fun words => alloc_grows (.array words)).before fun _ => keeps_pure _
  | store target => cases stores
  | storeThrough => cases stores
  | storeElement => cases stores
  | _ => exact .of_keeps (execute_keeps_kept image rfl rfl)

/-! ### Stores that fault -/

/-- With a word of room a push does not fault, so anything may be said of its faults. -/
theorem push_ends_room {failed : Fault → Machine Workspace → Prop} (value : Value)
    (room : 0 < m.stack.top) : (push value).Ends m (fun _ _ => True) failed := by
  simp only [Ends, push, onStack, Stack.push, room, dif_pos]

/-- A popped word makes room for another. -/
theorem pop_ends_room (m : Machine Workspace) :
    pop.Ends m (fun _ n => kept n = kept m ∧ 0 < n.stack.top) fun _ n => kept n = kept m := by
  obtain ⟨⟨words, top, inside⟩, globals, host, frame, next, line, depth⟩ := m
  by_cases present : top < words.size <;> simp [Ends, pop, onStack, Stack.pop, present, kept]

/-- Writing to a place does not move the top, not even if the place is on the stack. A word there
is replaced in place, and globals and fields are no part of the stack. -/
theorem writeSlot_keeps_top (place : Slot) (value : Value) :
    Keeps (fun m => m.stack.top) (writeSlot (σ := Workspace) place value) := by
  rintro ⟨⟨words, top, inside⟩, globals, host, frame, next, line, depth⟩
  cases place with
  | global index =>
    by_cases declared : index < globals.size <;> simp [Ends, writeSlot, writeGlobal, declared]
  | stack index =>
    by_cases live : top ≤ index ∧ index < words.size <;>
      simp [Ends, writeSlot, onStack, Stack.set, live]
  | field object index =>
    simp only [Ends, writeSlot, onHost]
    cases Host.setField object index value host <;> rfl

/-- Nor does storing through one. -/
theorem storeThrough_keeps_top (target value : Value) :
    Keeps (fun m => m.stack.top) (storeThrough (σ := Workspace) target value) := by
  cases target with
  | slot place => exact writeSlot_keeps_top place value
  | scalar number => exact keeps_throw _
  | ref object => exact keeps_throw _

/-- Behind a store there is as much room as before it, and a store that faults has left
everything as it was. -/
theorem store_ends_room {action : Action (Machine Workspace) Unit} (spares : Spares id action)
    (keeps : Keeps (fun m => m.stack.top) action) {s : Machine Workspace}
    (same : kept s = kept m) (room : 0 < s.stack.top) :
    action.Ends s (fun _ t => 0 < t.stack.top) fun _ t => kept t = kept m := by
  unfold Ends
  cases ended : action s with
  | ok a t =>
    have top : t.stack.top = s.stack.top := keeps.of_ok ended
    dsimp only
    rwa [top]
  | error cause t =>
    obtain rfl : t = s := spares.of_error ended
    exact same

/-- The stored word finds room when it is put back. -/
theorem store_push_ends {action : Action (Machine Workspace) Unit} (spares : Spares id action)
    (keeps : Keeps (fun m => m.stack.top) action) (value : Value) {s : Machine Workspace}
    (same : kept s = kept m) (room : 0 < s.stack.top) :
    (action >>= fun _ => push value).Ends s (fun _ _ => True) fun _ t => kept t = kept m :=
  (store_ends_room spares keeps same room).bind fun _ _ room => push_ends_room value room

/-- A store of an element that faults has written nothing. The three words are taken off first, the
write is the last thing that can be refused, and the push behind it finds the room that those words
have left. -/
theorem storeElement_spares_kept :
    Spares kept (storeElement : Action (Machine Workspace) Unit) := by
  intro m
  refine (pop_ends_room m).bind fun value s ⟨same, _⟩ => ?_
  have popped := pop_ends_room s
  rw [same] at popped
  refine popped.bind fun target t ⟨same, room⟩ => ?_
  cases target with
  | scalar index =>
    have popped := pop_ends_room t
    rw [same] at popped
    refine popped.bind fun container u ⟨same, room⟩ => ?_
    exact store_push_ends (setElement_spares container index value)
      (onHost_keeps (fun _ _ => rfl) _) value same room
  | ref object =>
    exact store_push_ends (storeThrough_spares (.ref object) value)
      (storeThrough_keeps_top _ _) value same room
  | slot place =>
    exact store_push_ends (storeThrough_spares (.slot place) value)
      (storeThrough_keeps_top _ _) value same room

/-- A store that faults has stored nothing. In each of them the write is the last part that can be
refused: where a push follows, the words taken before have made room for it. -/
theorem execute_spares_kept (image : Image) (stores : instruction.isStore = true) :
    Spares kept (execute (σ := Workspace) image instruction) := by
  cases instruction with
  | store target =>
    refine Spares.bind (keeps_observe _) fun value => Spares.before ?_ fun _ => unfailing_pure _
    refine Spares.bind (keeps_observe _) fun place => Spares.during _ ?_
    exact spares_of_id (writeSlot_spares place value)
  | storeThrough =>
    intro m
    refine (pop_ends_room m).bind fun value s ⟨same, _⟩ => ?_
    have popped := pop_ends_room s
    rw [same] at popped
    refine popped.bind fun target t ⟨same, room⟩ => ?_
    have stored := store_ends_room (storeThrough_spares target value)
      (storeThrough_keeps_top _ _) same room
    exact stored.bind fun _ u room => (push_ends_room value room).bind fun _ _ done => done
  | storeElement => exact storeElement_spares_kept.before fun _ => unfailing_pure _
  | _ => cases stores

/-- Behind a fault the globals are the same, and at most one object has been made. -/
theorem execute_fault_grown {image : Image} {cause : Fault}
    (faulted : execute image instruction m = .error cause n) : Grown m n := by
  cases stores : instruction.isStore with
  | true => exact .of_kept ((execute_spares_kept image stores).of_error faulted)
  | false => exact (execute_grows image stores m).of_error faulted

end BytecodeMachine.Machine
