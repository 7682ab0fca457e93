import BytecodeMachine.Instruction.Encode
import BytecodeMachine.Proofs.Machine.Growth
import BytecodeMachine.Proofs.Machine.Registers
import BytecodeMachine.Proofs.Stack.Live
/-!
# The footprint of stores

On a workspace an instruction that stores nothing leaves the globals and all objects as they
were, and makes one object at most. A store changes one word at most, where its operand says:
the variable it names, or the place or the element that lies below the stored word. Whatever
may lie elsewhere is the same, so no two objects share a word.

Neither changes the shape of an object. What a reference leads to keeps its shape for ever.
-/
namespace BytecodeMachine.Machine

open BytecodeMachine.Action

variable {m n s u : Machine Workspace} {instruction : Instruction} {place : Slot} {value : Value}

/-- There is a word at this place. -/
def Has (m : Machine Workspace) : Slot → Prop
  | .global index => index < m.globals.size
  | .stack index => m.stack.top ≤ index ∧ index < m.stack.words.size
  | .field object position => (m.host.heap.word? object position).isSome

/-- The same globals and the same objects, except for the word at a place. -/
structure SameBut (place : Slot) (before after : Array Value × Heap) : Prop where
  globals_size : after.1.size = before.1.size
  globals : ∀ index, place ≠ .global index → after.1[index]? = before.1[index]?
  heap_size : after.2.size = before.2.size
  object : ∀ object, (∀ position, place ≠ .field object position) →
    after.2.objects[object.index]? = before.2.objects[object.index]?
  shape : ∀ object, after.2.shape? object = before.2.shape? object
  word : ∀ object position, place ≠ .field object position →
    after.2.word? object position = before.2.word? object position

/-- Nothing at all may have changed. -/
theorem SameBut.refl (place : Slot) (found : Array Value × Heap) : SameBut place found found :=
  ⟨rfl, fun _ _ => rfl, rfl, fun _ _ => rfl, fun _ => rfl, fun _ _ _ => rfl⟩

/-- Overwriting a global leaves the others and the heap. -/
theorem sameBut_global (globals : Array Value) (heap : Heap) (index : Nat) (value : Value) :
    SameBut (.global index) (globals, heap) (globals.setIfInBounds index value, heap) := by
  refine ⟨Array.size_setIfInBounds .., ?_, rfl, fun _ _ => rfl, fun _ => rfl, fun _ _ _ => rfl⟩
  intro other elsewhere
  have ne : index ≠ other := fun same => elsewhere (congrArg Slot.global same)
  exact Array.getElem?_setIfInBounds_ne ne

/-- Overwriting a word of an object leaves the globals, the other objects, the other words of this
one, and every shape. -/
theorem sameBut_field (globals : Array Value) (heap : Heap) (object : Ref) (position : Nat)
    (value : Value) :
    SameBut (.field object position) (globals, heap)
      (globals, heap.put object position value) := by
  refine ⟨rfl, fun _ _ => rfl, Array.size_modify, ?_, ?_, ?_⟩
  · intro other elsewhere
    have ne : object.index ≠ other.index := by
      intro same
      obtain ⟨index⟩ := object
      obtain ⟨index'⟩ := other
      obtain rfl : index = index' := same
      exact elsewhere position rfl
    rw [Heap.getElem?_put, if_neg ne]
  · intro other
    exact Heap.shape?_put object position value heap other
  · intro other index elsewhere
    refine Heap.word?_put_of_ne ?_ value heap
    rintro ⟨rfl, rfl⟩
    exact elsewhere rfl

/-- A word has been put into a place, where there was one, and nothing else has changed. -/
structure Written (place : Slot) (value : Value) (m n : Machine Workspace) : Prop where
  there : m.Has place
  others : SameBut place (kept m) (kept n)
  top : n.stack.top = m.stack.top
  size : n.stack.words.size = m.stack.words.size
  words : ∀ index, place ≠ .stack index → n.stack.words[index]? = m.stack.words[index]?
  stored : ∀ index, place = .stack index → n.stack.words[index]? = some value

/-- A word that an object has can be overwritten, and the stack is not touched. What is required of
places on the stack holds because the place is none. -/
theorem written_field {object : Ref} {position : Nat}
    (there : (m.host.heap.word? object position).isSome) :
    Written (.field object position) value m
      { m with host := { m.host with heap := m.host.heap.put object position value } } where
  there := there
  others := sameBut_field m.globals m.host.heap object position value
  top := rfl
  size := rfl
  words _ _ := rfl
  stored := by
    intro index same
    cases same

/-- If writing to a place succeeds there was a word, and it is the only one that has changed. By
cases on the place; a raw field is checked against the object before it is written. -/
theorem writeSlot_written (done : writeSlot place value m = .ok () n) :
    Written place value m n := by
  cases place with
  | global index =>
    obtain ⟨stack, globals, host, frame, next, line, depth⟩ := m
    simp only [writeSlot, writeGlobal] at done
    split at done
    · next inside =>
      cases done
      refine ⟨inside, sameBut_global globals host.heap index value, rfl, rfl, fun _ _ => rfl, ?_⟩
      intro other same
      cases same
    · cases done
  | stack index =>
    obtain ⟨stack, set, rfl⟩ := onStack_eq_ok_iff.mp done
    obtain ⟨live, top, words⟩ := Stack.set_eq_ok_iff.mp set
    refine ⟨live, SameBut.refl _ _, top, ?_, ?_, ?_⟩
    · dsimp only
      rw [words, Array.size_setIfInBounds]
    · intro other elsewhere
      have ne : index ≠ other := fun same => elsewhere (congrArg Slot.stack same)
      dsimp only
      rw [words, Array.getElem?_setIfInBounds_ne ne]
    · rintro _ ⟨⟩
      dsimp only
      rw [words, Array.getElem?_setIfInBounds_self_of_lt live.2]
  | field object position =>
    obtain ⟨host, asked, rfl⟩ := onHost_eq_ok_iff.mp done
    obtain ⟨heap, set, rfl⟩ := onHeap_eq_ok_iff.mp asked
    obtain ⟨there, rfl⟩ := Heap.setField_eq_ok set
    exact written_field there

/-- An element is a word of the object that the container leads to, at the position that the index
is. -/
theorem setElement_written {container : Value} {index : Int32}
    (done : onHost (Host.setElement container index value) m = .ok () n) :
    ∃ object, container = .ref object ∧ 0 ≤ index ∧
      Written (.field object index.toInt.toNat) value m n := by
  obtain ⟨host, asked, rfl⟩ := onHost_eq_ok_iff.mp done
  obtain ⟨heap, set, rfl⟩ := onHeap_eq_ok_iff.mp asked
  obtain ⟨object, leads, positive, there, rfl⟩ := Heap.setElement_eq_ok set
  exact ⟨object, leads, positive, written_field there⟩

/-- The place that the operand of a store designates, and how many words the store takes from the
stack. The stored word is the topmost one. -/
inductive Designates (m : Machine Workspace) : Instruction → Nat → Slot → Prop
  /-- The place of the variable that is named. -/
  | name {name : Variable} {place : Slot} (found : m.place name = .ok place) :
      Designates m (.store name) 1 place
  /-- The place below the stored word. -/
  | through {place : Slot} (below : m.stack.peek 1 = .ok (.slot place)) :
      Designates m .storeThrough 2 place
  | throughElement {place : Slot} (below : m.stack.peek 1 = .ok (.slot place)) :
      Designates m .storeElement 2 place
  /-- The element of the object below the number that is below the stored word. -/
  | element {index : Int32} {object : Ref} (below : m.stack.peek 1 = .ok (.scalar index))
      (container : m.stack.peek 2 = .ok (.ref object)) (positive : 0 ≤ index) :
      Designates m .storeElement 3 (.field object index.toInt.toNat)

/-- What a store changes: it takes words from the stack and leaves the stored one, it puts that
into a place where there was a word, and everything else is as it was. A place on the stack is
among the words that are left. -/
structure Footprint (taken : Nat) (place : Slot) (m n : Machine Workspace) : Prop where
  there : m.Has place
  live : ∀ index, place = .stack index → n.stack.top ≤ index
  others : SameBut place (kept m) (kept n)
  top : n.stack.top + 1 = m.stack.top + taken
  value : n.stack.words[n.stack.top]? = m.stack.words[m.stack.top]?
  size : n.stack.words.size = m.stack.words.size
  words : ∀ index, index ≠ n.stack.top → place ≠ .stack index →
    n.stack.words[index]? = m.stack.words[index]?

/-- Where a store goes does not depend on the next offset. -/
theorem Designates.of_next {taken next : Nat}
    (designates : Designates { m with next } instruction taken place) :
    Designates m instruction taken place := by
  cases designates with
  | name found => exact .name found
  | through below => exact .through below
  | throughElement below => exact .throughElement below
  | element below container positive => exact .element below container positive

/-- Where the machine goes on plays no part in what is stored. -/
theorem Footprint.of_next {taken next : Nat} (footprint : Footprint taken place { m with next } n) :
    Footprint taken place m n := by
  obtain ⟨there, live, others, top, value, size, words⟩ := footprint
  refine ⟨?_, live, others, top, value, size, words⟩
  cases place <;> exact there

/-- Before words were taken from the stack a place was there too. Globals and objects are the same,
and a position that is live above a higher top is live above a lower one. -/
theorem Has.before (there : s.Has place) (same : kept s = kept m)
    (words : s.stack.words = m.stack.words) (top : m.stack.top ≤ s.stack.top) : m.Has place := by
  simp only [kept, Prod.mk.injEq] at same
  obtain ⟨globals, heap⟩ := same
  cases place with
  | global index =>
    simp only [Has, ← globals]
    exact there
  | stack index =>
    simp only [Has, ← words]
    exact ⟨Nat.le_trans top there.1, there.2⟩
  | field object position =>
    simp only [Has, ← heap]
    exact there

/-- The stored word is left on top without having been taken. Should the place be the top itself,
then the word that is written there is the one that was there. -/
theorem Written.footprint (written : Written place value m n)
    (topmost : m.stack.words[m.stack.top]? = some value) : Footprint 1 place m n where
  there := written.there
  live := by
    rintro index rfl
    rw [written.top]
    exact written.there.1
  others := written.others
  top := by rw [written.top]
  value := by
    rw [written.top, topmost]
    by_cases same : place = .stack m.stack.top
    · exact written.stored _ same
    · rw [written.words _ same, topmost]
  size := written.size
  words index _ elsewhere := written.words index elsewhere

/-- The stored word is taken with all others and put back. What was written lies below the words
taken, so the push is at another index and writes what was on top. -/
theorem Written.footprint_push {taken : Nat} (written : Written place value s u)
    (same : kept s = kept m) (words : s.stack.words = m.stack.words)
    (top : s.stack.top = m.stack.top + taken) (two : 2 ≤ taken)
    (topmost : m.stack.words[m.stack.top]? = some value) (pushed : push value u = .ok () n) :
    Footprint taken place m n := by
  obtain ⟨stack, added, rfl⟩ := onStack_eq_ok_iff.mp pushed
  obtain ⟨below, replaced⟩ := Stack.push_eq_ok_iff.mp added
  have writtenTop := written.top
  have inside : stack.top < u.stack.words.size := by
    have bound := u.stack.top_le
    omega
  refine ⟨written.there.before same words (by omega), ?_, ?_, ?_, ?_, ?_, ?_⟩
  · rintro index rfl
    have live : s.stack.top ≤ index := written.there.1
    dsimp only
    omega
  · rw [← same]
    exact written.others
  · dsimp only
    omega
  · rw [topmost]
    dsimp only
    rw [replaced, Array.getElem?_setIfInBounds_self_of_lt inside]
  · dsimp only
    rw [replaced, Array.size_setIfInBounds, written.size, words]
  · intro index aside elsewhere
    have ne : stack.top ≠ index := fun same => aside same.symm
    dsimp only
    rw [replaced, Array.getElem?_setIfInBounds_ne ne, written.words index elsewhere, words]

/-- A store through the place below the stored word. The two words on top are read off the original
stack, where the place designates what is written. -/
theorem storeThrough_footprint {target : Value} {s t : Machine Workspace}
    (popped : pop m = .ok value s) (poppedTarget : pop s = .ok target t)
    (stored : storeThrough target value t = .ok () u) (pushed : push value u = .ok () n) :
    ∃ place, m.stack.peek 1 = .ok (.slot place) ∧ Footprint 2 place m n := by
  obtain ⟨first, topmost, rfl⟩ := pop_eq_ok_iff.mp popped
  obtain ⟨second, below, rfl⟩ := pop_eq_ok_iff.mp poppedTarget
  obtain ⟨topmost, top, words⟩ := Stack.pop_eq_ok_iff.mp topmost
  obtain ⟨below, top', words'⟩ := Stack.pop_eq_ok_iff.mp below
  rw [words, top] at below
  cases target with
  | slot place =>
    refine ⟨place, Stack.peek_eq_ok_iff.mpr below, ?_⟩
    have written : Written place value _ u := writeSlot_written stored
    exact written.footprint_push rfl (words'.trans words) (top'.trans (by rw [top])) (Nat.le_refl 2)
      topmost pushed
  | scalar number => cases stored
  | ref object => cases stored

/-- A store into an element of the object below the number that is below the stored word. The three
words are read off the original stack, and the container leads to the object that is written. -/
theorem setElement_footprint {index : Int32} {container : Value} {s t w : Machine Workspace}
    (popped : pop m = .ok value s) (poppedIndex : pop s = .ok (.scalar index) t)
    (poppedContainer : pop t = .ok container w)
    (stored : onHost (Host.setElement container index value) w = .ok () u)
    (pushed : push value u = .ok () n) :
    ∃ taken place, Designates m .storeElement taken place ∧ Footprint taken place m n := by
  obtain ⟨first, topmost, rfl⟩ := pop_eq_ok_iff.mp popped
  obtain ⟨second, below, rfl⟩ := pop_eq_ok_iff.mp poppedIndex
  obtain ⟨third, lowest, rfl⟩ := pop_eq_ok_iff.mp poppedContainer
  obtain ⟨topmost, top, words⟩ := Stack.pop_eq_ok_iff.mp topmost
  obtain ⟨below, top', words'⟩ := Stack.pop_eq_ok_iff.mp below
  obtain ⟨lowest, top'', words''⟩ := Stack.pop_eq_ok_iff.mp lowest
  rw [words', words, top', top] at lowest
  rw [words, top] at below
  obtain ⟨object, rfl, positive, written⟩ := setElement_written stored
  refine ⟨3, _, .element (Stack.peek_eq_ok_iff.mpr below) (Stack.peek_eq_ok_iff.mpr lowest)
    positive, ?_⟩
  refine written.footprint_push rfl (words''.trans (words'.trans words)) ?_ (by decide) topmost
    pushed
  dsimp only
  rw [top'', top', top]

/-- A store that succeeds changes one word, the one that its operand designates. Proof: by the
three stores, and for the one with two forms by the word below the stored one. -/
theorem execute_footprint {image : Image} {flow : Flow} (stores : instruction.isStore = true)
    (done : execute image instruction m = .ok flow n) :
    ∃ taken place, Designates m instruction taken place ∧ Footprint taken place m n := by
  cases instruction with
  | store name =>
    simp only [execute, store, bind_eq_ok_iff, observe_eq_ok_iff, during_eq_ok_iff] at done
    obtain ⟨value, _, ⟨peeked, rfl⟩, _, u, ⟨place, _, ⟨found, rfl⟩, stored⟩, ⟨⟩⟩ := done
    have topmost := Stack.peek_eq_ok_iff.mp peeked
    exact ⟨1, place, .name found, (writeSlot_written stored).footprint topmost⟩
  | storeThrough =>
    simp only [execute, bind_eq_ok_iff] at done
    obtain ⟨value, s, popped, target, t, poppedTarget, _, u, stored, _, _, pushed, ⟨⟩⟩ := done
    obtain ⟨place, below, footprint⟩ :=
      storeThrough_footprint popped poppedTarget stored pushed
    exact ⟨2, place, .through below, footprint⟩
  | storeElement =>
    simp only [execute, storeElement, bind_eq_ok_iff] at done
    obtain ⟨_, _, ⟨value, s, popped, target, t, poppedTarget, done⟩, ⟨⟩⟩ := done
    cases target with
    | scalar index =>
      simp only [bind_eq_ok_iff] at done
      obtain ⟨container, w, poppedContainer, _, u, stored, pushed⟩ := done
      exact setElement_footprint popped poppedTarget poppedContainer stored pushed
    | ref object =>
      simp only [bind_eq_ok_iff] at done
      obtain ⟨_, u, stored, _⟩ := done
      cases stored
    | slot place =>
      simp only [bind_eq_ok_iff] at done
      obtain ⟨_, u, stored, pushed⟩ := done
      obtain ⟨place, below, footprint⟩ :=
        storeThrough_footprint popped poppedTarget stored pushed
      exact ⟨2, place, .throughElement below, footprint⟩
  | _ => cases stores

/-- A turn changes no shape of an object that is there. -/
theorem Grown.shape? (grown : Grown m n) {object : Ref} {shape : Shape}
    (found : m.host.heap.shape? object = some shape) :
    n.host.heap.shape? object = some shape := by
  obtain ⟨added, objects, _⟩ := grown.heap
  obtain ⟨there, known, rfl⟩ := Option.map_eq_some_iff.mp found
  have inside : object.index < m.host.heap.objects.size := (Array.getElem?_eq_some_iff.mp known).1
  rw [Heap.shape?, objects, Array.getElem?_append_left inside, known]
  rfl

/-- What a reference leads to has the same shape afterwards, also behind a fault. A store replaces
one word of an object, other instructions add objects at most, and a fault leaves those that are
there. -/
theorem advance_keeps_shape (image : Image) (object : Ref) {shape : Shape}
    (found : m.host.heap.shape? object = some shape) :
    (advance image).Ends m (fun _ n => n.host.heap.shape? object = some shape)
      fun _ n => n.host.heap.shape? object = some shape := by
  cases fetched : fetch image m.next with
  | error cause =>
    obtain ⟨reported, faulted⟩ := advance_of_unread fetched
    unfold Ends
    rw [faulted]
    exact found
  | ok read =>
    obtain ⟨instruction, behind⟩ := read
    unfold Ends
    cases ended : advance image m with
    | ok flow n =>
      have executed := executed_of_advance fetched ended
      cases stores : instruction.isStore with
      | true =>
        obtain ⟨_, _, _, footprint⟩ := execute_footprint stores executed
        exact (footprint.others.shape object).trans found
      | false => exact ((execute_grows image stores _).of_ok executed).shape? found
    | error cause n =>
      have inside := fetch_inside fetched
      obtain ⟨_, executed⟩ := executed_of_fault (by omega) fetched ended
      exact (execute_fault_grown executed).shape? found

/-- On a workspace a turn that succeeds stores only by an instruction for it. All others leave the
globals and the objects that were there as they were and make one object at most, at the end
of the heap and only by the five instructions for it. A store makes none and changes one word
at most, the one that its operand designates. So whatever runs, an object keeps its shape:
its kind, its length, its tag and its entry. -/
theorem store_footprint (image : Image) (m : Machine Workspace) :
    (∀ instruction behind flow n, fetch image m.next = .ok (instruction, behind) →
        advance image m = .ok flow n →
        (instruction.isStore = false → n.globals = m.globals ∧
          ∃ added, n.host.heap.objects = m.host.heap.objects ++ added ∧ added.size ≤ 1 ∧
            (added ≠ #[] → instruction.isMaking = true)) ∧
        (instruction.isStore = true → n.host.heap.size = m.host.heap.size ∧
          ∃ taken place, Designates m instruction taken place ∧ Footprint taken place m n)) ∧
      ∀ n, Later image m n → ∀ object shape, m.host.heap.shape? object = some shape →
        n.host.heap.shape? object = some shape := by
  constructor
  · intro instruction behind flow n fetched advanced
    have executed := executed_of_advance fetched advanced
    constructor
    · intro stores
      obtain ⟨globals, added, objects, one⟩ := (execute_grows image stores _).of_ok executed
      refine ⟨globals, ?_⟩
      cases makes : instruction.isMaking with
      | true => exact ⟨added, objects, one, fun _ => rfl⟩
      | false =>
        have same := (execute_keeps_kept image makes stores).of_ok executed
        refine ⟨#[], ?_, Nat.zero_le _, fun some => absurd rfl some⟩
        rw [Array.append_empty]
        exact congrArg (fun kept => kept.2.objects) same
    · intro stores
      obtain ⟨taken, place, designates, footprint⟩ := execute_footprint stores executed
      exact ⟨footprint.others.heap_size, taken, place, designates.of_next, footprint.of_next⟩
  · intro n later object shape found
    induction later with
    | refl => exact found
    | turn _ advanced earlier => exact (advance_keeps_shape image object earlier).of_ok advanced
    | fault _ faulted earlier => exact (advance_keeps_shape image object earlier).of_error faulted

/-- A program that makes an array of two elements and stores into the second one. -/
def storedElement : Image where
  strings := #[]
  publics := []
  code := (([.constant 5, .constant 6, .array 2, .constant 1, .constant 9, .storeElement] :
    List Instruction).flatMap Instruction.encode).toArray
  globals := 0

/-- The store finds the second element of the array, and the array keeps its shape. The turns
before it are known by their instructions, and the objects by their shapes. -/
theorem store_footprint_storedElement :
    ∃ m n, Reachable storedElement 16 (Workspace.ofInput [] {}) m ∧
      advance storedElement m = .ok .next n ∧ n.host.heap.size = m.host.heap.size ∧
      (∃ taken place, Designates m .storeElement taken place ∧ Footprint taken place m n) ∧
      n.host.heap.shape? ⟨0⟩ = some ⟨.array, 2, none, none⟩ := by
  obtain ⟨first, made, done, shapes⟩ :
      ∃ first, (Machine.start storedElement 16 .boundless (Workspace.ofInput [] {})).2 = .ok first ∧
        (record storedElement 6 [] first).1.map (·.instruction) = [.storeElement, .constant 9,
          .constant 1, .array 2, .constant 6, .constant 5] ∧
        (record storedElement 6 [] first).1.map (·.before.host.heap.shape? ⟨0⟩) =
          [some ⟨.array, 2, none, none⟩, some ⟨.array, 2, none, none⟩,
            some ⟨.array, 2, none, none⟩, none, none, none] :=
    ⟨_, rfl, by decide +kernel, by decide +kernel⟩
  have history := (History.start made).record 6
  obtain ⟨last, past, turns, stores, _⟩ := List.map_eq_cons_iff.mp done
  rw [turns] at history shapes
  obtain ⟨reachable, fetched, advanced⟩ := history.last
  rw [stores] at fetched
  obtain ⟨step, forever⟩ := store_footprint storedElement last.before
  obtain ⟨size, footprint⟩ := (step _ _ _ _ fetched advanced).2 rfl
  have shape := (List.cons.inj shapes).1
  exact ⟨last.before, last.after, reachable, advanced, size, footprint,
    forever last.after (Later.refl.turn advanced) ⟨0⟩ _ shape⟩

end BytecodeMachine.Machine
