import BytecodeMachine.Proofs.Machine.Bounds
import BytecodeMachine.Proofs.Machine.Correspondence
import BytecodeMachine.Proofs.Machine.Footprint
import BytecodeMachine.Proofs.Machine.Refusal
import BytecodeMachine.Proofs.Machine.Variables
import BytecodeMachine.Proofs.Stack.Live
/-!
# Storing through places

A variable can be stored into by its name, or through its place, which is found first and lies
below the stored word until it is used. The stack is not as high when a word is put into a
place as when it is put into a variable, and the words above it differ. Neither matters for a
variable that can be loaded: its place, and what it takes to find it, lie below both.

A store into an element that finds no number below the stored word is a store through a place.
-/
namespace BytecodeMachine.Machine

open BytecodeMachine.Action

variable {σ : Type} {image : Image} {m s t : Machine σ} {name : Variable} {place : Slot}
  {value word : Value} {extra : List Value}

/-- The second machine is the first one with some more words on top of the stack. Words that are
not live do not count, nor does where the machine goes on. -/
structure Above (extra : List Value) (s t : Machine σ) : Prop where
  capacity : t.stack.capacity = s.stack.capacity
  live : t.stack.live.toList = extra ++ s.stack.live.toList
  globals : t.globals = s.globals
  host : t.host = s.host
  frame : t.frame = s.frame

/-- The same live words, globals, host and frame pointer. -/
structure Agree (s t : Machine σ) : Prop where
  live : s.stack.live = t.stack.live
  globals : s.globals = t.globals
  host : s.host = t.host
  frame : s.frame = t.frame

namespace Above

/-- With no words on top it is the same machine. -/
theorem refl (m : Machine σ) : Above [] m m := ⟨rfl, rfl, rfl, rfl, rfl⟩

/-- Both stacks grow from the same end. -/
theorem top (above : Above extra s t) : t.stack.top + extra.length = s.stack.top := by
  have length := congrArg List.length above.live
  have first := Stack.length_live s.stack
  have second := Stack.length_live t.stack
  have capacity := above.capacity
  rw [List.length_append] at length
  omega

/-- A word may be pushed on the upper machine alone, as long as the lower one has room for all of
them. -/
theorem push (above : Above extra s t) (value : Value) (room : extra.length < s.stack.top) :
    ∃ u, Machine.push value t = .ok () u ∧ Above (value :: extra) s u := by
  have top := above.top
  have length := Stack.length_live t.stack
  have space : t.stack.live.toList.length < t.stack.capacity := by omega
  obtain ⟨stack, pushed⟩ := Stack.push_room value space
  refine ⟨{ t with stack }, onStack_eq_ok_iff.mpr ⟨stack, pushed, rfl⟩,
    ?_, ?_, above.globals, above.host, above.frame⟩
  · exact ((Stack.push_keeps_capacity value).of_ok pushed).trans above.capacity
  · rw [Stack.push_live pushed, above.live]
    rfl

/-- The word that was pushed last is popped first. -/
theorem pop (above : Above (value :: extra) s t) :
    ∃ u, Machine.pop t = .ok value u ∧ Above extra s u := by
  obtain ⟨stack, popped, left⟩ := Stack.pop_present above.live
  refine ⟨{ t with stack }, onStack_eq_ok_iff.mpr ⟨stack, popped, rfl⟩,
    ?_, left, above.globals, above.host, above.frame⟩
  exact (Stack.pop_keeps_capacity.of_ok popped).trans above.capacity

/-- A word that can be read can be read below others. Its index stays the same, because the stack
grows downwards and its depth has grown by the words that were added. -/
theorem get (above : Above extra s t) {index : Nat} (read : s.stack.get index = .ok word) :
    t.stack.get index = .ok word := by
  have top := above.top
  obtain ⟨depth, rfl⟩ := Nat.exists_eq_add_of_le (Stack.get_eq_ok_iff.mp read).1
  have deeper : s.stack.top + depth = t.stack.top + (extra.length + depth) := by omega
  rw [Stack.get_eq_ok_iff_live] at read
  rw [deeper, Stack.get_eq_ok_iff_live, above.live,
    List.getElem?_append_right (Nat.le_add_right _ _), Nat.add_sub_cancel_left]
  exact read

/-- The words on top lie above the frame pointer, so the closure below the arguments is found
alike. -/
theorem runningClosure (above : Above extra s t) {object : Ref}
    (runs : s.runningClosure = .ok object) : t.runningClosure = .ok object := by
  obtain ⟨count, counted, positive, last⟩ := runningClosure_eq_ok_iff.mp runs
  rw [← above.frame] at counted last
  exact runningClosure_eq_ok_iff.mpr ⟨count, above.get counted, positive, above.get last⟩

/-- Variables have the same places, since the frame pointer and the running closure are the
same. -/
theorem placed (above : Above extra s t) (placed : s.place name = .ok place) :
    t.place name = .ok place :=
  place_of_same above.frame (congrArg Array.size above.globals)
    (fun _ _ runs => above.runningClosure runs) placed

/-- Machines that are above the same one by the same words agree. -/
theorem agree (above : Above extra m s) (above' : Above extra m t) : Agree s t where
  live := Array.toList_inj.mp (above.live.trans above'.live.symm)
  globals := above.globals.trans above'.globals.symm
  host := above.host.trans above'.host.symm
  frame := above.frame.trans above'.frame.symm

variable [Host σ]

/-- What is done to a place that can be read is done below other words too. Globals and hosts are
the same on both sides, and a place on the stack that can be read is live on both, below the words
on top. -/
theorem writeSlot (above : Above extra s t) (readable : s.readSlot place = .ok word)
    (value : Value) :
    Tracks True (Above extra) (Machine.writeSlot place value) (Machine.writeSlot place value)
      s t := by
  cases place with
  | global index =>
    have inside := readSlot_global_lt readable
    simp only [Tracks, Ends, Machine.writeSlot, writeGlobal]
    rw [if_pos inside, if_pos (by rwa [above.globals])]
    exact ⟨_, rfl, { above with globals := by rw [above.globals] }⟩
  | stack index =>
    have top := above.top
    have read : s.stack.get index = .ok word := readable
    have live := (Stack.get_eq_ok_iff.mp read).1
    obtain ⟨stack, set⟩ := Stack.set_of_get read value
    obtain ⟨stack', set'⟩ := Stack.set_of_get (above.get read) value
    refine tracks_of_ok (onStack_eq_ok_iff.mpr ⟨stack, set, rfl⟩)
      (onStack_eq_ok_iff.mpr ⟨stack', set', rfl⟩) { above with capacity := ?_, live := ?_ }
    · exact ((Stack.set_keeps_capacity index value).of_ok set').trans
        (above.capacity.trans ((Stack.set_keeps_capacity index value).of_ok set).symm)
    · rw [Stack.set_live set', Stack.set_live set, above.live,
        List.set_append_right _ _ (by omega)]
      congr 2
      omega
  | field object index =>
    exact (simulates_eq (Host.setField object index value) _ _ above.host.symm).within
      (onHost_eq_putBack _ s) (onHost_eq_putBack _ t) fun _ _ same =>
        { above with host := same.symm }

end Above

variable [Host σ]

/-- Stores through the place of a variable, which is found before the stored word is there. -/
def storeByPlace (image : Image) (name : Variable) (value : Value) : Action (Machine σ) Flow := do
  let _ ← execute image (.loadPlace name)
  push value
  execute image .storeThrough

/-- Stores into a variable, which is looked for when the stored word is there. -/
def storeByName (image : Image) (name : Variable) (value : Value) : Action (Machine σ) Flow := do
  push value
  execute image (.store name)

/-- The place is on the stack and off it again before it is used. Two pushes and two pops come back
to the same live words, from where the write and the last push go on. -/
theorem storeByPlace_eq (image : Image) (value : Value) (placed : m.place name = .ok place)
    (room : 2 ≤ m.stack.top) :
    ∃ s, Above [] m s ∧ storeByPlace image name value m = (do
      writeSlot place value
      push value
      return Flow.next) s := by
  obtain ⟨first, addressed, atPlace⟩ := (Above.refl m).push (.slot place)
    (by rw [List.length_nil]; omega)
  obtain ⟨second, pushed, full⟩ := atPlace.push value (by rw [List.length_singleton]; omega)
  obtain ⟨third, popped, below⟩ := full.pop
  obtain ⟨fourth, popped', back⟩ := below.pop
  have finds : execute image (.loadPlace name) m = .ok .next first :=
    bind_eq_ok_iff.mpr ⟨place, m, observe_eq_ok_iff.mpr ⟨placed, rfl⟩,
      bind_eq_ok_iff.mpr ⟨(), first, addressed, rfl⟩⟩
  refine ⟨fourth, back, ?_⟩
  rw [storeByPlace, bind_of_ok finds, bind_of_ok pushed, execute, bind_of_ok popped,
    bind_of_ok popped']
  rfl

/-- The variable is found where it has been before the word was there, since places do not depend
on words on top. What is stored is the word itself. -/
theorem storeByName_eq (image : Image) (value : Value) (placed : m.place name = .ok place)
    (room : 0 < m.stack.top) :
    ∃ t, Above [value] m t ∧ storeByName image name value m = (do
      (writeSlot place value).during (.storing name)
      return Flow.next) t := by
  obtain ⟨t, pushed, above⟩ := (Above.refl m).push value room
  have topmost : t.stack.peek 0 = .ok value := by
    rw [Stack.peek_eq_ok_iff_live, above.live]
    rfl
  have looks : observe (fun m : Machine σ => m.stack.peek 0) t = .ok value t :=
    observe_eq_ok_iff.mpr ⟨topmost, rfl⟩
  have finds : observe (Machine.place name) t = .ok place t :=
    observe_eq_ok_iff.mpr ⟨above.placed placed, rfl⟩
  refine ⟨t, above, ?_⟩
  rw [storeByName, bind_of_ok pushed, execute, bind_of_ok looks, store, bind_assoc,
    bind_of_ok finds]

/-- The number below the stored word decides what a store into an element is. Without one the two
instructions are made of the same parts, and fault in the same place. -/
theorem storeElement_eq_storeThrough (image : Image)
    (noNumber : ∀ number, m.stack.peek 1 ≠ .ok (.scalar number)) :
    execute image .storeElement m = execute image .storeThrough m := by
  cases popped : pop m with
  | error cause s => simp only [execute, storeElement, bind, EStateM.bind, popped]
  | ok value s =>
    cases popped' : pop s with
    | error cause t => simp only [execute, storeElement, bind, EStateM.bind, popped, popped']
    | ok target t =>
      cases target with
      | scalar number => exact absurd (peek_of_pops popped popped') (noNumber number)
      | ref object =>
        simp only [execute, storeElement, bind, EStateM.bind, popped, popped']
        cases storeThrough (.ref object) value t <;> rfl
      | slot place =>
        simp only [execute, storeElement, bind, EStateM.bind, popped, popped']
        cases storeThrough (.slot place) value t <;> rfl

section

variable {m n : Machine Workspace} (placed : m.place name = .ok place)
  (read : m.readSlot place = .ok word) (room : 2 ≤ m.stack.top)
include placed read room

/-- If the place takes the word, both stores are granted, and the machines agree afterwards. The
same write is done on machines that differ by words on top, one of which is the stored word in the
end. -/
theorem stores_granted (written : writeSlot place value m = .ok () n) :
    ∃ s t, storeByPlace image name value m = .ok .next s ∧
      storeByName image name value m = .ok .next t ∧ Agree s t := by
  obtain ⟨s, back, byPlace⟩ := storeByPlace_eq image value placed room
  obtain ⟨t, above, byName⟩ := storeByName_eq image value placed (Nat.lt_of_succ_lt room)
  -- neither store starts from `m`, but both do to the place what is done to it from there
  obtain ⟨s', done, now⟩ := (back.writeSlot read value).of_ok written
  obtain ⟨t', done', now'⟩ := (above.writeSlot read value).of_ok written
  have top : n.stack.top = m.stack.top := (writeSlot_written written).top
  obtain ⟨u, pushed, last⟩ := now.push value (by rw [List.length_nil]; omega)
  refine ⟨u, t', ?_, ?_, last.agree now'⟩
  · rw [byPlace, bind_of_ok done, bind_of_ok pushed]
    rfl
  · rw [byName, bind_of_ok (during_eq_ok_iff.mpr done')]
    rfl

/-- If it does not, both are refused for the same reason, to which the store by name adds its
context, with nothing stored anywhere. The refusal is that of the same write, and what is left
behind differs by words on top only. -/
theorem stores_refused {cause : Fault} (refused : writeSlot place value m = .error cause n) :
    ∃ s t, storeByPlace image name value m = .error cause s ∧
      storeByName image name value m = .error (.during (.storing name) cause) t ∧
      (s.globals = m.globals ∧ s.host = m.host) ∧ t.globals = m.globals ∧ t.host = m.host := by
  obtain ⟨s, back, byPlace⟩ := storeByPlace_eq image value placed room
  obtain ⟨t, above, byName⟩ := storeByName_eq image value placed (Nat.lt_of_succ_lt room)
  obtain rfl : n = m := (writeSlot_spares place value).of_error refused
  obtain ⟨s', failed, now⟩ := (back.writeSlot read value).of_error trivial refused
  obtain ⟨t', failed', now'⟩ := (above.writeSlot read value).of_error trivial refused
  refine ⟨s', t', ?_, ?_, ⟨now.globals, now.host⟩, now'.globals, now'.host⟩
  · rw [byPlace]
    exact bind_eq_error_iff.mpr (.inl failed)
  · rw [byName]
    refine bind_eq_error_iff.mpr (.inl ?_)
    simp only [Action.during, failed']

end

/-- Storing through a place is storing, for every variable that can be loaded, whatever its storage
is and however high the stack is, if there is room for the place and the word. A store into an
element that finds no number does all that a store through a place does, faults included. -/
theorem storing_through_places :
    (∀ (image : Image) (m : Machine Workspace) (name : Variable) (value word : Value),
      m.load name = .ok word → 2 ≤ m.stack.top →
        (∃ s t, storeByPlace image name value m = .ok .next s ∧
          storeByName image name value m = .ok .next t ∧ Agree s t) ∨
        ∃ cause s t, storeByPlace image name value m = .error cause s ∧
          storeByName image name value m = .error (.during (.storing name) cause) t ∧
          (s.globals = m.globals ∧ s.host = m.host) ∧ t.globals = m.globals ∧ t.host = m.host) ∧
    ∀ {τ : Type} [Host τ] (image : Image) (offset behind : Nat) (m : Machine τ),
      (∀ number, m.stack.peek 1 ≠ .ok (.scalar number)) →
        turn image offset behind .storeElement m = turn image offset behind .storeThrough m := by
  constructor
  · intro image m name value word loaded room
    obtain ⟨place, placed, read⟩ := load_eq_ok_iff.mp loaded
    cases written : writeSlot place value m with
    | ok a n => exact .inl (stores_granted placed read room written)
    | error cause n => exact .inr ⟨cause, stores_refused placed read room written⟩
  · intro τ _ image offset behind m noNumber
    have same : execute image .storeElement { m with next := behind } =
        execute image .storeThrough { m with next := behind } :=
      storeElement_eq_storeThrough image noNumber
    simp only [turn, same]

/-- A program that puts the place of a global below a number. -/
def placeBelowNumber : Image where
  strings := #[]
  publics := []
  code := (([.enter 2 0, .loadPlace ⟨.globals, 0⟩, .constant 7, .storeElement, .stop] :
    List Instruction).flatMap Instruction.encode).toArray
  globals := 1

/-- Both stores of a number are granted, and the two instructions do the same with the place. The
state is one that a program comes to, with a place under the number on its stack. -/
theorem storing_through_places_placeBelowNumber :
    ∃ m, Reachable placeBelowNumber 16 (Workspace.ofInput [] {}) m ∧
      m.load ⟨.globals, 0⟩ = .ok Value.zero ∧ 2 ≤ m.stack.top ∧
      (∃ s t, storeByPlace placeBelowNumber ⟨.globals, 0⟩ (.scalar 9) m = .ok .next s ∧
        storeByName placeBelowNumber ⟨.globals, 0⟩ (.scalar 9) m = .ok .next t ∧ Agree s t) ∧
      m.stack.peek 1 = .ok (.slot (.global 0)) ∧
      turn placeBelowNumber 19 20 .storeElement m =
        turn placeBelowNumber 19 20 .storeThrough m := by
  obtain ⟨first, made, loads, room, stores, below⟩ :
      ∃ first,
        (Machine.start placeBelowNumber 16 .boundless (Workspace.ofInput [] {})).2 = .ok first ∧
        (afterTurns placeBelowNumber 3 first).load ⟨.globals, 0⟩ = .ok Value.zero ∧
        2 ≤ (afterTurns placeBelowNumber 3 first).stack.top ∧
        (storeByPlace placeBelowNumber ⟨.globals, 0⟩ (.scalar 9)).run'
          (afterTurns placeBelowNumber 3 first) = some .next ∧
        (afterTurns placeBelowNumber 3 first).stack.peek 1 = .ok (.slot (.global 0)) :=
    ⟨_, rfl, rfl, by decide +kernel, by decide +kernel, rfl⟩
  have noNumber : ∀ number,
      (afterTurns placeBelowNumber 3 first).stack.peek 1 ≠ .ok (.scalar number) := by
    intro number same
    cases below.symm.trans same
  refine ⟨_, reachable_iff_afterTurns.mpr ⟨_, first, 3, made, rfl⟩, loads, room, ?_, below,
    storing_through_places.2 placeBelowNumber 19 20 _ noNumber⟩
  obtain agree | ⟨cause, s, t, failed, _⟩ :=
    storing_through_places.1 placeBelowNumber _ _ (.scalar 9) _ loads room
  · exact agree
  · obtain ⟨_, done⟩ := run'_eq_some_iff.mp stores
    cases failed.symm.trans done

end BytecodeMachine.Machine
