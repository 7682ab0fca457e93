import BytecodeMachine.Host.Workspace
import BytecodeMachine.Machine.Step
import BytecodeMachine.Proofs.Heap
/-!
# Sound machines

In a sound machine every word is sound, wherever it is kept: on the stack, also where the
stack is not live, among the globals, and in the objects of the heap. Words go from any of
these to any other, so the four are one invariant. The registers belong to it as well, since
calls and entries put them on the stack.

`Safe` says that an action keeps machines sound however it ends, that it never faults for a
reference that leads nowhere, and how many objects there are when it has succeeded. Which
numbers are admitted in words is left open.
-/
namespace BytecodeMachine.Machine

open BytecodeMachine.Action

variable {α β : Type} {number : Int32 → Prop} {objects more most declared : Nat}

/-- A machine with this many objects and globals, in which every word is sound. -/
structure Sound (number : Int32 → Prop) (objects declared : Nat) (m : Machine Workspace) :
    Prop where
  objects_eq : m.host.heap.size = objects
  globals_eq : m.globals.size = declared
  stack : ∀ word ∈ m.stack.words, word.Sound number objects declared
  globals : ∀ word ∈ m.globals, word.Sound number objects declared
  heap : m.host.heap.Holds (Value.Sound number objects declared)
  frame : number (Int32.ofNat m.frame)
  next : number (Int32.ofNat m.next)
  sizes : ∀ size ≤ m.stack.words.size, number (Int32.ofNat size)

/-- From a sound machine with `objects` objects the action leads to a sound machine, whether it
answers or faults; if it answers there are `more` objects, and if it faults no reference is
to blame. -/
def Safe (number : Int32 → Prop) (objects more declared : Nat)
    (action : Action (Machine Workspace) α) (done : α → Prop) : Prop :=
  ∀ m, Sound number objects declared m →
    action.Ends m (fun a n => Sound number more declared n ∧ done a)
      (fun cause n => (∃ left, Sound number left declared n) ∧ cause.isDangling = false)

variable {done : α → Prop}

/-- Sequences: the second part begins with as many objects as the first one has left, and with what
the first has answered. -/
theorem Safe.bind {first : Action (Machine Workspace) α} {next : α → Action (Machine Workspace) β}
    {after : β → Prop} (begins : Safe number objects more declared first done)
    (goesOn : ∀ a, done a → Safe number more most declared (next a) after) :
    Safe number objects most declared (first >>= next) after := fun m sound =>
  (begins m sound).bind fun a n reached => goesOn a reached.2 n reached.1

/-- Less may be said of the answer. -/
theorem Safe.mono {action : Action (Machine Workspace) α} {weaker : α → Prop}
    (safe : Safe number objects more declared action done) (implies : ∀ a, done a → weaker a) :
    Safe number objects more declared action weaker := fun m sound =>
  (safe m sound).mono (fun a _ reached => ⟨reached.1, implies a reached.2⟩) fun _ _ failed => failed

/-- A context is added to the fault, and whether a reference is to blame does not change. An answer
has no context at all. -/
theorem Safe.during {action : Action (Machine Workspace) α} (context : Context)
    (safe : Safe number objects more declared action done) :
    Safe number objects more declared (action.during context) done := by
  intro m sound
  have before := safe m sound
  unfold Ends at before ⊢
  unfold Action.during
  cases ended : action m with
  | ok a n =>
    rw [ended] at before
    exact before
  | error cause n =>
    rw [ended] at before
    exact before

/-- Answering alone changes nothing. -/
theorem safe_pure {a : α} (now : done a) :
    Safe number objects objects declared (pure a) done := fun _ sound => ⟨sound, now⟩

/-- A fault is safe if it is not about a reference that leads nowhere. -/
theorem safe_throw {cause : Fault} (other : cause.isDangling = false) :
    Safe number objects more declared (throw cause : Action (Machine Workspace) α) done :=
  fun _ sound => ⟨⟨objects, sound⟩, other⟩

/-- What is seen in a sound machine may depend on its being sound. Seeing changes nothing, so the
machine is as sound as before, with as many objects. -/
theorem safe_observe {look : Machine Workspace → Answer α}
    (gives : ∀ m, Sound number objects declared m → (look m).Gives done) :
    Safe number objects objects declared (observe look) done := by
  intro m sound
  have seen := gives m sound
  unfold Ends observe
  cases looked : look m with
  | ok a =>
    rw [looked] at seen
    exact ⟨sound, seen⟩
  | error cause =>
    rw [looked] at seen
    exact ⟨⟨objects, sound⟩, seen⟩

/-- So is a given answer, whose faults are of that kind. -/
theorem safe_answer {given : Answer α} (gives : given.Gives done) :
    Safe number objects objects declared (answer given) done := safe_observe fun _ _ => gives

/-- Looking at the machine answers one that is sound. -/
theorem safe_get : Safe number objects objects declared (get : Action (Machine Workspace) _)
    (Sound number objects declared) := fun _ sound => ⟨sound, sound⟩

/-- An update is safe if it keeps machines sound. -/
theorem safe_modify {update : Machine Workspace → Machine Workspace}
    (keeps : ∀ m, Sound number objects declared m → Sound number objects declared (update m)) :
    Safe number objects objects declared (modify update) fun _ => True :=
  fun m sound => ⟨keeps m sound, trivial⟩

/-- The stack of a sound machine may become any stack of the same size with sound words. -/
theorem Sound.withStack {m : Machine Workspace} (sound : Sound number objects declared m)
    {stack : Stack} (size : stack.words.size = m.stack.words.size)
    (words : ∀ word ∈ stack.words, word.Sound number objects declared) :
    Sound number objects declared { m with stack } :=
  ⟨sound.objects_eq, sound.globals_eq, words, sound.globals, sound.heap, sound.frame, sound.next,
    fun count small => sound.sizes count (Nat.le_trans small (Nat.le_of_eq size))⟩

/-- An action on the stack is safe if it puts no words there that are not sound. The rest of the
machine is untouched, and a fault has to leave the stack as it was. -/
theorem safe_onStack {action : Action Stack α}
    (ends : ∀ s : Stack, (∀ word ∈ s.words, word.Sound number objects declared) →
      (∀ size ≤ s.words.size, number (Int32.ofNat size)) →
      action.Ends s
        (fun a t => t.words.size = s.words.size ∧
          (∀ word ∈ t.words, word.Sound number objects declared) ∧ done a)
        (fun cause t => t = s ∧ cause.isDangling = false)) :
    Safe number objects objects declared (onStack action) done := by
  intro m sound
  have ended := ends m.stack sound.stack sound.sizes
  unfold Ends at ended
  simp only [Ends, onStack]
  cases outcome : action m.stack with
  | ok a stack =>
    rw [outcome] at ended
    exact ⟨sound.withStack ended.1 ended.2.1, ended.2.2⟩
  | error cause stack =>
    rw [outcome] at ended
    obtain ⟨rfl, other⟩ := ended
    exact ⟨⟨objects, sound⟩, other⟩

/-- A sound word may be pushed. It is now one of the words of the stack, and the others are still
there. -/
theorem safe_push {value : Value} (given : value.Sound number objects declared) :
    Safe number objects objects declared (push value) fun _ => True := by
  refine safe_onStack fun s words sizes => ?_
  obtain ⟨storage, top, inside⟩ := s
  by_cases room : 0 < top
  · simp only [Ends, Stack.push, room, dif_pos, Array.size_set, and_true, true_and]
    intro word member
    rcases Array.mem_or_eq_of_mem_set member with before | rfl
    · exact words word before
    · exact given
  · simp [Ends, Stack.push, room, Fault.isDangling]

/-- An admitted number is sound. -/
theorem safe_pushNumber {k : Int32} (admitted : number k) :
    Safe number objects objects declared (push (.scalar k)) fun _ => True := safe_push admitted

/-- So is a reference to an object that is there. -/
theorem safe_pushRef {object : Ref} (inside : object.index < objects) :
    Safe number objects objects declared (push (.ref object)) fun _ => True := safe_push inside

/-- And a place that may be. -/
theorem safe_pushPlace {place : Slot} (there : place.Sound objects declared) :
    Safe number objects objects declared (push (.slot place)) fun _ => True := safe_push there

/-- A word taken off the stack was in it, and so it is sound. It stays in the array behind the top,
where it is as sound as it was. -/
theorem safe_pop :
    Safe number objects objects declared (pop : Action (Machine Workspace) Value)
      (Value.Sound number objects declared) := by
  refine safe_onStack fun s words sizes => ?_
  obtain ⟨storage, top, inside⟩ := s
  by_cases present : top < storage.size
  · simp only [Ends, Stack.pop, present, dif_pos]
    exact ⟨trivial, words, words _ (Array.getElem_mem present)⟩
  · simp [Ends, Stack.pop, present, Fault.isDangling]

/-- Dropping leaves the words where they are and moves the top. -/
theorem safe_drop (count : Nat) :
    Safe number objects objects declared (onStack (Stack.drop count)) fun _ => True := by
  refine safe_onStack fun s words sizes => ?_
  obtain ⟨storage, top, inside⟩ := s
  by_cases present : count ≤ storage.size - top
  · simp only [Ends, Stack.drop, present, dif_pos]
    exact ⟨trivial, words, trivial⟩
  · simp [Ends, Stack.drop, present, Fault.isDangling]

/-- So does moving the top anywhere else. -/
theorem safe_setTop (index : Nat) :
    Safe number objects objects declared (onStack (Stack.setTop index)) fun _ => True := by
  refine safe_onStack fun s words sizes => ?_
  obtain ⟨storage, top, inside⟩ := s
  by_cases live : top ≤ index ∧ index ≤ storage.size
  · simp only [Ends, Stack.setTop, live]
    exact ⟨rfl, words, trivial⟩
  · simp [Ends, Stack.setTop, live, Fault.isDangling]

/-- A sound word may replace any other. Each word of the array is the new one then, or one that was
there before. -/
theorem safe_set {value : Value} (index : Nat) (given : value.Sound number objects declared) :
    Safe number objects objects declared (onStack (Stack.set index value)) fun _ => True := by
  refine safe_onStack fun s words sizes => ?_
  obtain ⟨storage, top, inside⟩ := s
  by_cases live : top ≤ index ∧ index < storage.size
  · simp only [Ends, Stack.set, live, dif_pos, Array.size_set, and_true, true_and]
    intro word member
    rcases Array.mem_or_eq_of_mem_set member with before | rfl
    · exact words word before
    · exact given
  · simp [Ends, Stack.set, live, Fault.isDangling]

/-- Overwritten areas hold what they held and what was written. Proof: induction on the values,
each of which takes the place of one word or, beyond the end, of none. -/
theorem mem_overwriteWords {words : Array Value} {start : Nat} {values : List Value} {word : Value}
    (member : word ∈ overwriteWords words start values) : word ∈ words ∨ word ∈ values := by
  induction values generalizing words start with
  | nil => exact .inl member
  | cons value rest later =>
    rcases later member with before | written
    · rcases Array.mem_or_eq_of_mem_setIfInBounds before with before | rfl
      · exact .inl before
      · exact .inr List.mem_cons_self
    · exact .inr (List.mem_cons_of_mem _ written)

/-- Reserving writes zeros, and zero is admitted as a size that the stack has. All other words of
the array were in it before. -/
theorem safe_reserve (count : Nat) :
    Safe number objects objects declared (onStack (Stack.reserve count)) fun _ => True := by
  refine safe_onStack fun s words sizes => ?_
  obtain ⟨storage, top, inside⟩ := s
  by_cases room : count ≤ top
  · simp only [Ends, Stack.reserve, room, dif_pos, size_overwriteWords, and_true, true_and]
    intro word member
    rcases mem_overwriteWords member with before | zero
    · exact words word before
    · rw [List.eq_of_mem_replicate zero]
      exact sizes 0 (Nat.zero_le _)
  · simp [Ends, Stack.reserve, room, Fault.isDangling]

/-- How many words are reversed is the size of something on the stack. The words are the same ones
in another order, so they are as sound as before. -/
theorem safe_reverse (count : Nat) :
    Safe number objects objects declared (onStack (Stack.reverse count))
      fun _ => number (Int32.ofNat count) := by
  refine safe_onStack fun s words sizes => ?_
  obtain ⟨storage, top, inside⟩ := s
  by_cases present : count ≤ storage.size - top
  · simp only [Ends, Stack.reverse, present, dif_pos, size_overwriteWords, true_and]
    refine ⟨?_, sizes count (Nat.le_trans present (Nat.sub_le ..))⟩
    intro word member
    rcases mem_overwriteWords member with before | moved
    · exact words word before
    · obtain ⟨index, _, rfl⟩ := Array.mem_extract_iff_getElem.mp
        (Array.mem_toList_iff.mp (List.mem_reverse.mp moved))
      exact words _ (Array.getElem_mem _)
  · simp [Ends, Stack.reverse, present, Fault.isDangling]

/-- A request is safe if it leaves a heap that holds sound words, and no smaller one. Then the
words outside the heap are sound for it as well, which is why the number of objects may grow but
not shrink. -/
theorem safe_onHost {action : Action Workspace α} (grown : objects ≤ more)
    (ends : ∀ host : Workspace, host.heap.size = objects →
      host.heap.Holds (Value.Sound number objects declared) →
      action.Ends host
        (fun a after => after.heap.size = more ∧
          after.heap.Holds (Value.Sound number more declared) ∧ done a)
        (fun cause after => after.heap = host.heap ∧ cause.isDangling = false)) :
    Safe number objects more declared (onHost action) done := by
  intro m sound
  have ended := ends m.host sound.objects_eq sound.heap
  unfold Ends at ended
  simp only [Ends, onHost]
  cases outcome : action m.host with
  | ok a host =>
    rw [outcome] at ended
    obtain ⟨size, held, now⟩ := ended
    refine ⟨⟨size, sound.globals_eq, ?_, ?_, held, sound.frame, sound.next, sound.sizes⟩, now⟩
    · exact fun word member => (sound.stack word member).mono grown
    · exact fun word member => (sound.globals word member).mono grown
  | error cause host =>
    rw [outcome] at ended
    obtain ⟨same, other⟩ := ended
    refine ⟨⟨objects, ?_, sound.globals_eq, sound.stack, sound.globals, ?_, sound.frame,
      sound.next, sound.sizes⟩, other⟩
    · rw [same]
      exact sound.objects_eq
    · rw [same]
      exact sound.heap

/-- What happens to the heap of a workspace is what happens to the heap alone. So an end of the
action is an end of the request, read at the heap of the host that is left. -/
theorem onHeap_ends {action : Action Heap α} {host : Workspace} {good : α → Heap → Prop}
    {bad : Fault → Heap → Prop} (ends : action.Ends host.heap good bad) :
    (Workspace.onHeap action).Ends host (fun a after => good a after.heap)
      (fun cause after => bad cause after.heap) := by
  unfold Ends at ends ⊢
  simp only [Workspace.onHeap]
  cases outcome : action host.heap with
  | ok a heap =>
    rw [outcome] at ends
    exact ends
  | error cause heap =>
    rw [outcome] at ends
    exact ends

/-- Making an object of sound words answers a reference to it. What was sound for the objects
before is sound for one more. -/
theorem alloc_ends_sound {made : Object} {host : Workspace} (size : host.heap.size = objects)
    (held : host.heap.Holds (Value.Sound number objects declared))
    (given : ∀ word ∈ made.words, word.Sound number objects declared) :
    (Workspace.onHeap (Heap.alloc made)).Ends host
      (fun object after => after.heap.size = objects + 1 ∧
        after.heap.Holds (Value.Sound number (objects + 1) declared) ∧ object.index < objects + 1)
      (fun cause after => after.heap = host.heap ∧ cause.isDangling = false) := by
  refine (onHeap_ends (Heap.alloc_ends made host.heap)).mono ?_ fun _ _ failed => failed
  rintro object after ⟨index, same⟩
  rw [same, index, size]
  refine ⟨?_, ?_, Nat.lt_succ_self _⟩
  · rw [← size]
    exact Array.size_push _
  · exact (held.push given).mono fun word sound => sound.mono (Nat.le_succ _)

/-- A new object of sound words makes one more object. Its reference is the number of those before
it, and what was sound stays sound. -/
theorem safe_alloc {made : Object}
    (given : ∀ word ∈ made.words, word.Sound number objects declared) :
    Safe number objects (objects + 1) declared (onHost (Workspace.onHeap (Heap.alloc made)))
      fun object => object.index < objects + 1 :=
  safe_onHost (Nat.le_succ _) fun _ size held => alloc_ends_sound size held given

/-- A string holds no word. -/
theorem safe_newString (bytes : Array UInt8) :
    Safe number objects (objects + 1) declared (onHost (Host.newString bytes))
      fun object => object.index < objects + 1 :=
  safe_alloc fun _ none => absurd none (Array.not_mem_empty _)

/-- An array of sound words. -/
theorem safe_newArray {words : Array Value}
    (given : ∀ word ∈ words, word.Sound number objects declared) :
    Safe number objects (objects + 1) declared (onHost (Host.newArray words))
      fun object => object.index < objects + 1 := safe_alloc given

/-- An aggregate of sound words, whatever its tag. -/
theorem safe_newAggregate {words : Array Value} (tag : Int32)
    (given : ∀ word ∈ words, word.Sound number objects declared) :
    Safe number objects (objects + 1) declared (onHost (Host.newAggregate tag words))
      fun object => object.index < objects + 1 := safe_alloc given

/-- A closure of sound words. Its entry is a number and no word. -/
theorem safe_newClosure {words : Array Value} (entry : Nat)
    (given : ∀ word ∈ words, word.Sound number objects declared) :
    Safe number objects (objects + 1) declared (onHost (Host.newClosure entry words))
      fun object => object.index < objects + 1 := safe_alloc given

/-- Whatever is printed is printed into bytes, so the string that is made holds no words. It is one
more object, so the bound on references grows by one. -/
theorem safe_print (value : Value) :
    Safe number objects (objects + 1) declared (onHost (Workspace.print value))
      fun object => object.index < objects + 1 := by
  refine safe_onHost (Nat.le_succ _) fun host size held => ?_
  have looked : (get : Action Workspace Workspace).Ends host
      (fun found after => found = host ∧ after = host)
      (fun cause after => after.heap = host.heap ∧ cause.isDangling = false) := ⟨rfl, rfl⟩
  refine looked.bind ?_
  rintro _ _ ⟨rfl, rfl⟩
  exact alloc_ends_sound size held fun _ none => absurd none (Array.not_mem_empty _)

/-- A sound word may be written to a field of an object that is there. -/
theorem safe_setField {object : Ref} {value : Value} (index : Nat)
    (given : value.Sound number objects declared) (inside : object.index < objects) :
    Safe number objects objects declared (onHost (Host.setField object index value))
      fun _ => True := by
  refine safe_onHost (Nat.le_refl _) fun host size held => ?_
  refine (onHeap_ends (Heap.setField_ends held given (by omega))).mono ?_ fun _ _ failed => failed
  rintro _ after ⟨same, held'⟩
  exact ⟨same.trans size, held', trivial⟩

/-- Or to an element of a container, which as a sound word leads to an object if it is a reference
at all. -/
theorem safe_setElement {container value : Value} (index : Int32)
    (given : value.Sound number objects declared)
    (found : container.Sound number objects declared) :
    Safe number objects objects declared (onHost (Host.setElement container index value))
      fun _ => True := by
  refine safe_onHost (Nat.le_refl _) fun host size held => ?_
  refine (onHeap_ends (Heap.setElement_ends held given ?_)).mono ?_ fun _ _ failed => failed
  · rintro object rfl
    rw [size]
    exact found
  · rintro _ after ⟨same, held'⟩
    exact ⟨same.trans size, held', trivial⟩

/-- Reading and writing leave the heap alone and are given no references. So the heap is as it was,
and a fault of the console cannot be one about a reference. -/
theorem safe_onConsole {action : Action Console α} (clean : Clean action) :
    Safe number objects objects declared (onHost (Workspace.onConsole action)) fun _ => True := by
  refine safe_onHost (Nat.le_refl _) fun host size held => ?_
  have ended := clean host.console
  unfold Ends at ended ⊢
  simp only [Workspace.onConsole]
  cases outcome : action host.console with
  | ok a console => exact ⟨size, held, trivial⟩
  | error cause console =>
    rw [outcome] at ended
    exact ⟨rfl, ended⟩

end BytecodeMachine.Machine
