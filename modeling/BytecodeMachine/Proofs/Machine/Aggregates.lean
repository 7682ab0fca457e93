import BytecodeMachine.Proofs.Machine.NewObjects
import BytecodeMachine.Proofs.Machine.Numbers
import BytecodeMachine.Proofs.Machine.Progress
import BytecodeMachine.Proofs.Tag
/-!
# Arrays and aggregates

The words that an array or an aggregate is made of lie on the stack, the last one on top. They
are gathered in the order in which they have been pushed, and the object has them as its
elements in this order. They are read back by their indices, and nothing else is.

Pattern tests tell arrays from aggregates and look at the length. An aggregate is known by its
tag, and a tag spells the beginning of the name that it is made from. So two names have the
same tag exactly if they begin with the same five characters.
-/
namespace BytecodeMachine

namespace Machine

open BytecodeMachine.Action

variable {image : Image} {m n s : Machine Workspace} {object : Ref} {instruction : Instruction}
  {values below taken rest : List Value} {value given : Value} {flow : Flow} {behind : Nat}

/-! ### Gathering -/

/-- From `m` to `n` the topmost words have been replaced by a reference to an object that has been
made. The next offset has been moved, and nothing else has changed. -/
def Gathers (object : Ref) (made : Object) (below : List Value) (behind : Nat)
    (m n : Machine Workspace) : Prop :=
  ∃ stack : Stack, stack.live.toList = .ref object :: below ∧
    n = { m.withObject made with stack, next := behind }

/-- What is gathered are the words in the order in which they have been pushed. They lie on the
stack with the last one first, are turned round, and are then read off for the object and
dropped. -/
theorem gather_live {make : Array Value → Object}
    (live : m.stack.live.toList = values.reverse ++ below)
    (done : gather values.length (fun words => Workspace.onHeap (Heap.alloc (make words))) m =
      .ok () n) :
    Gathers ⟨m.host.heap.size⟩ (make values.toArray) below m.next m n := by
  have all : values.reverse.length = values.length := List.length_reverse
  simp only [gather, push, bind_eq_ok_iff, observe_eq_ok_iff, onStack_eq_ok_iff] at done
  obtain ⟨_, _, ⟨turned, reversed, rfl⟩, words, _, ⟨looked, rfl⟩, _, _, made, _, _,
    ⟨left, dropped, rfl⟩, stack, pushed, rfl⟩ := done
  have gathered : turned.live.toList = values ++ below := by
    rw [Stack.reverse_live reversed, live, List.take_left' all, List.drop_left' all,
      List.reverse_reverse]
  have found : words = values.toArray := by
    rw [← Array.toList_inj, Stack.window_live looked, gathered, List.take_left' rfl]
  obtain ⟨rfl, rfl⟩ := alloc_eq_ok made
  refine ⟨stack, ?_, by rw [found]; rfl⟩
  dsimp only [withObject] at dropped pushed
  rw [Stack.push_live pushed, Stack.drop_live dropped, gathered, List.drop_left' rfl]

/-- An array that is made has the topmost words as its elements. -/
theorem execute_array {size : Int32} (live : m.stack.live.toList = values.reverse ++ below)
    (all : values.length = size.toInt.toNat)
    (done : execute image (.array size) { m with next := behind } = .ok flow n) :
    Gathers ⟨m.host.heap.size⟩ (.array values.toArray) below behind m n := by
  simp only [execute, answer, bind_eq_ok_iff, observe_eq_ok_iff, count_eq_ok_iff] at done
  obtain ⟨_, _, ⟨⟨_, rfl⟩, rfl⟩, ⟨⟩, _, done, ⟨⟩⟩ := done
  rw [← all] at done
  exact gather_live (m := { m with next := behind }) live done

/-- An aggregate that is made has the tag of its name and the topmost words as its fields. The name
and the tag are looked up before any word is taken, so both are known of what is made. -/
theorem execute_aggregate {name arity : Int32}
    (live : m.stack.live.toList = values.reverse ++ below)
    (all : values.length = arity.toInt.toNat)
    (done : execute image (.aggregate name arity) { m with next := behind } = .ok flow n) :
    ∃ bytes tag, image.stringAt name = .ok bytes ∧ Tag.ofName bytes.toList = .ok tag ∧
      Gathers ⟨m.host.heap.size⟩ (.aggregate tag values.toArray) below behind m n := by
  simp only [execute, askHost, answer, bind_eq_ok_iff, observe_eq_ok_iff, count_eq_ok_iff] at done
  obtain ⟨_, _, ⟨⟨_, rfl⟩, rfl⟩, bytes, _, ⟨found, rfl⟩, tag, _, ⟨tagged, rfl⟩, ⟨⟩, _, done, ⟨⟩⟩ :=
    done
  rw [← all] at done
  exact ⟨bytes, tag, found, tagged, gather_live (m := { m with next := behind }) live done⟩

/-- The reference leads to the object that has been made. -/
theorem Gathers.leads {made : Object}
    (gathers : Gathers ⟨m.host.heap.size⟩ made below behind m n) :
    n.host.heap.objects[(Ref.mk m.host.heap.size).index]? = some made := by
  obtain ⟨_, _, rfl⟩ := gathers
  exact leads_withObject made m

/-- The reference is on top of the stack. -/
theorem Gathers.onTop {made : Object} (gathers : Gathers object made below behind m n) :
    n.stack.live[0]? = some (.ref object) := by
  obtain ⟨stack, live, rfl⟩ := gathers
  rw [← Array.getElem?_toList]
  exact congrArg (·[0]?) live

/-! ### Asking -/

/-- Where the instruction is next and these words are on top of the stack, the turn replaces them
by one word, moves the next offset, and changes nothing else. -/
def Replaces (image : Image) (s : Machine Workspace) (instruction : Instruction)
    (taken : List Value) (given : Value) : Prop :=
  ∀ behind rest, fetch image s.next = .ok (instruction, behind) →
    s.stack.live.toList = taken ++ rest →
    ∃ stack : Stack, stack.live.toList = given :: rest ∧
      advance image s = .ok .next { s with stack, next := behind }

/-- Where the instruction is next and these words are on top of the stack, the turn faults. -/
def Refuses (image : Image) (s : Machine Workspace) (instruction : Instruction)
    (taken : List Value) : Prop :=
  ∀ behind rest, fetch image s.next = .ok (instruction, behind) →
    s.stack.live.toList = taken ++ rest → ∃ cause t, advance image s = .error cause t

/-- What an instruction does to the stack it does in a turn. Fetching moves the next offset and
nothing else, and an instruction that can be fetched lies inside the code. -/
theorem replaces_of_execute
    (executed : ∀ (t : Machine Workspace) rest, t.host = s.host →
      t.stack.live.toList = taken ++ rest → ∃ stack : Stack, stack.live.toList = given :: rest ∧
        execute image instruction t = .ok .next { t with stack }) :
    Replaces image s instruction taken given := by
  intro behind rest fetched live
  obtain ⟨stack, left, done⟩ := executed { s with next := behind } rest rfl live
  have inside := fetch_inside fetched
  exact ⟨stack, left, advance_eq_ok_iff.mpr ⟨_, behind, by omega, fetched, done⟩⟩

/-- A word that is taken leaves room for another. So to take a word and to give one back never
fails on a stack that has one, and the words under it are not touched. -/
theorem exists_exchange (given : Value) (live : s.stack.live.toList = value :: rest) :
    ∃ left stack : Stack, pop s = .ok value { s with stack := left } ∧
      left.live.toList = rest ∧ push given { s with stack := left } = .ok () { s with stack } ∧
      stack.live.toList = given :: rest := by
  obtain ⟨left, popped, under⟩ := Stack.pop_present live
  have capacity : left.capacity = s.stack.capacity := Stack.pop_keeps_capacity.of_ok popped
  have length := Stack.length_live s.stack
  have room : left.live.toList.length < left.capacity := by
    rw [live, List.length_cons] at length
    rw [under]
    omega
  obtain ⟨stack, pushed⟩ := Stack.push_room given room
  refine ⟨left, stack, onStack_eq_ok_iff.mpr ⟨left, popped, rfl⟩, under,
    onStack_eq_ok_iff.mpr ⟨stack, pushed, rfl⟩, ?_⟩
  rw [Stack.push_live pushed, under]

/-- An element that the heap answers is what the container and the index are replaced by, on any
stack and at any offset, since the instruction looks at nothing else. -/
theorem replaces_element {index : Int32}
    (answered : s.host.heap.element (.ref object) index = .ok value) :
    Replaces image s .element [.scalar index, .ref object] value := by
  refine replaces_of_execute fun t rest host live => ?_
  obtain ⟨first, _, popped, live, _, _⟩ := exists_exchange value live
  obtain ⟨second, stack, popped', _, pushed, live⟩ :=
    exists_exchange (s := { t with stack := first }) value live
  rw [← host] at answered
  refine ⟨stack, live, ?_⟩
  simp only [execute, askHost, answer, bind_eq_ok_iff, observe_eq_ok_iff]
  exact ⟨_, _, popped, index, _, ⟨rfl, rfl⟩, _, _, popped', _, _, ⟨answered, rfl⟩, (), _, pushed,
    rfl⟩

/-- So is the length of an object. It is asked of the heap after the reference has been taken, and
the heap is still the same. -/
theorem replaces_length {number : Int32}
    (answered : s.host.heap.length (.ref object) = .ok number) :
    Replaces image s .length [.ref object] (.ofInt number) := by
  refine replaces_of_execute fun t rest host live => ?_
  obtain ⟨left, stack, popped, _, pushed, live⟩ := exists_exchange (.ofInt number) live
  rw [← host] at answered
  refine ⟨stack, live, ?_⟩
  simp only [execute, askHost, bind_eq_ok_iff, observe_eq_ok_iff]
  exact ⟨_, _, popped, _, _, ⟨answered, rfl⟩, (), _, pushed, rfl⟩

/-- A match of an array replaces the word by whether it leads to an array of this size. The size is
known to be a count, so the question is put and the heap answers it. -/
theorem replaces_matchArray {size : Int32} (positive : 0 ≤ size) :
    Replaces image s (.matchArray size) [.ref object]
      (.ofBool (s.host.heap.isArray (.ref object) size.toInt.toNat)) := by
  refine replaces_of_execute fun t rest host live => ?_
  obtain ⟨left, stack, popped, _, pushed, live⟩ := exists_exchange
    (.ofBool (s.host.heap.isArray (.ref object) size.toInt.toNat)) live
  rw [← host] at pushed live ⊢
  refine ⟨stack, live, ?_⟩
  simp only [execute, answer, bind_eq_ok_iff, observe_eq_ok_iff, count_eq_ok_iff, get_eq_ok_iff]
  exact ⟨_, _, popped, _, _, ⟨⟨positive, rfl⟩, rfl⟩, _, _, ⟨rfl, rfl⟩, (), _, pushed, rfl⟩

/-- A match of an aggregate does so for a tag and a size, if the name in the image can be made a
tag. -/
theorem replaces_matchAggregate {name size tag : Int32} {bytes : Array UInt8} (positive : 0 ≤ size)
    (found : image.stringAt name = .ok bytes) (tagged : Tag.ofName bytes.toList = .ok tag) :
    Replaces image s (.matchAggregate name size) [.ref object]
      (.ofBool (s.host.heap.isAggregate (.ref object) tag size.toInt.toNat)) := by
  refine replaces_of_execute fun t rest host live => ?_
  obtain ⟨left, stack, popped, _, pushed, live⟩ := exists_exchange
    (.ofBool (s.host.heap.isAggregate (.ref object) tag size.toInt.toNat)) live
  rw [← host] at pushed live ⊢
  refine ⟨stack, live, ?_⟩
  simp only [execute, askHost, answer, bind_eq_ok_iff, observe_eq_ok_iff, count_eq_ok_iff,
    get_eq_ok_iff]
  exact ⟨_, _, ⟨found, rfl⟩, _, _, ⟨tagged, rfl⟩, _, _, popped, _, _, ⟨⟨positive, rfl⟩, rfl⟩, _, _,
    ⟨rfl, rfl⟩, (), _, pushed, rfl⟩

/-- If the heap answers nothing then the instruction faults. Had it succeeded, the words it has
taken would be these two, and the heap would have answered. -/
theorem refuses_element {index : Int32}
    (unanswered : ∀ value, s.host.heap.element (.ref object) index ≠ .ok value) :
    Refuses image s .element [.scalar index, .ref object] := by
  intro behind rest fetched live
  cases ended : advance image s with
  | error cause t => exact ⟨cause, t, rfl⟩
  | ok flow t =>
    have done := executed_of_advance fetched ended
    simp only [execute, pop, askHost, answer, bind_eq_ok_iff, observe_eq_ok_iff,
      onStack_eq_ok_iff, expectScalar_eq_ok_iff] at done
    obtain ⟨_, _, ⟨first, popped, rfl⟩, _, _, ⟨rfl, rfl⟩, _, _, ⟨second, popped', rfl⟩, value, _,
      ⟨answered, _⟩, _⟩ := done
    have words := Stack.pop_live popped
    rw [Stack.pop_live popped'] at words
    obtain ⟨⟨⟩, deeper⟩ := List.cons.inj (live.symm.trans words)
    obtain ⟨⟨⟩, _⟩ := List.cons.inj deeper
    exact absurd answered (unanswered value)

/-- A machine reads the elements of an object by their indices and nothing else, and their number if
it fits in a word. -/
structure HasElements (image : Image) (object : Ref) (values : List Value)
    (s : Machine Workspace) : Prop where
  element : ∀ index : Int32, 0 ≤ index → ∀ value, values[index.toInt.toNat]? = some value →
    Replaces image s .element [.scalar index, .ref object] value
  beyond : ∀ index : Int32, ¬ (0 ≤ index ∧ index.toInt.toNat < values.length) →
    Refuses image s .element [.scalar index, .ref object]
  length : values.length < 1073741824 →
    Replaces image s .length [.ref object] (.scalar (Int32.ofNat values.length))

/-- What the tests of arrays and of aggregates answer about an object, for every length that is not
negative and for every name that has a tag. -/
structure Matches (image : Image) (object : Ref) (asArray : Nat → Bool)
    (asAggregate : List UInt8 → Nat → Bool) (s : Machine Workspace) : Prop where
  array : ∀ size : Int32, 0 ≤ size →
    Replaces image s (.matchArray size) [.ref object] (.ofBool (asArray size.toInt.toNat))
  aggregate : ∀ name size : Int32, 0 ≤ size → ∀ bytes tag, image.stringAt name = .ok bytes →
    Tag.ofName bytes.toList = .ok tag → Replaces image s (.matchAggregate name size) [.ref object]
      (.ofBool (asAggregate bytes.toList size.toInt.toNat))

section

variable {found : Object} (leads : s.host.heap.objects[object.index]? = some found)
include leads

/-- An object that is no closure and has these words has them as its elements, one for each index
inside, and is refused at all others. Its length is their number. -/
theorem hasElements (elements : found.kind ≠ .closure) (length : found.length = values.length)
    (words : ∀ position, found.word? position = values[position]?) :
    HasElements image object values s where
  element index positive value there := by
    rw [← words] at there
    exact replaces_element
      (Heap.element_eq_ok_iff.mpr ⟨object, found, rfl, leads, elements, positive, there⟩)
  beyond index outside := by
    refine refuses_element fun value answered => outside ?_
    obtain ⟨_, other, ⟨⟩, leads', _, positive, there⟩ := Heap.element_eq_ok_iff.mp answered
    obtain rfl : found = other := Option.some.inj (leads.symm.trans leads')
    rw [words] at there
    exact ⟨positive, (List.getElem?_eq_some_iff.mp there).1⟩
  length small := by
    have answered : s.host.heap.length (.ref object) = .ok (Int32.ofNat values.length) :=
      Heap.length_eq_ok_iff.mpr ⟨object, found, rfl, leads, by omega, by rw [length]⟩
    have kept := Word.unbox_box (Word.fits_ofNat (Nat.le_of_lt_succ small))
    have replaces : Replaces image s .length [.ref object] _ := replaces_length answered
    rwa [Value.ofInt, kept] at replaces

end

/-- An array is matched by its length, and by no name. Both matches are answered by the heap, which
finds an array of that many elements. -/
theorem matches_array
    (leads : s.host.heap.objects[object.index]? = some (.array values.toArray)) :
    Matches image object (fun size => decide (size = values.length)) (fun _ _ => false) s where
  array size positive := by
    have same : s.host.heap.isArray (.ref object) size.toInt.toNat =
        decide (size.toInt.toNat = values.length) := by
      rw [Heap.isArray, Heap.lookup?, leads, Bool.eq_iff_iff]
      simp only [List.size_toArray, beq_iff_eq, decide_eq_true_eq]
      exact eq_comm
    rw [← same]
    exact replaces_matchArray positive
  aggregate name size positive bytes tag found tagged := by
    have other : s.host.heap.isAggregate (.ref object) tag size.toInt.toNat = false := by
      rw [Heap.isAggregate, Heap.lookup?, leads]
    rw [← other]
    exact replaces_matchAggregate positive found tagged

/-- An aggregate is matched by its length together with a name that begins as its own. The match
compares tags, and tags are the same if the names agree in what is packed. -/
theorem matches_aggregate {name : List UInt8} {tag : Int32} (named : Tag.ofName name = .ok tag)
    (leads : s.host.heap.objects[object.index]? = some (.aggregate tag values.toArray)) :
    Matches image object (fun _ => false)
      (fun other size => decide (size = values.length ∧ other.take 5 = name.take 5)) s where
  array size positive := by
    have other : s.host.heap.isArray (.ref object) size.toInt.toNat = false := by
      rw [Heap.isArray, Heap.lookup?, leads]
    rw [← other]
    exact replaces_matchArray positive
  aggregate label size positive bytes tag' found tagged := by
    have same : s.host.heap.isAggregate (.ref object) tag' size.toInt.toNat =
        decide (size.toInt.toNat = values.length ∧ bytes.toList.take 5 = name.take 5) := by
      rw [Heap.isAggregate, Heap.lookup?, leads, Bool.eq_iff_iff]
      simp only [List.size_toArray, Bool.and_eq_true, beq_iff_eq, decide_eq_true_eq,
        Tag.ofName_eq_iff named tagged, Tag.length]
      exact and_comm.trans (and_congr eq_comm eq_comm)
    rw [← same]
    exact replaces_matchAggregate positive found tagged

/-- If an array or an aggregate is made of words that have been pushed one after another, these
words and no others are replaced by a reference that has been nowhere before.

As long as the object is what it was made as, its elements are these words in the same order, and
every other index is refused. Tests of arrays match the array exactly with its own length and the
aggregate not at all. Tests of aggregates match the aggregate exactly with its own length and a
name that begins with the same five characters, and the array not at all. -/
theorem aggregates_match_only_themselves (live : m.stack.live.toList = values.reverse ++ below)
    (made : advance image m = .ok flow n) :
    (∀ size behind, fetch image m.next = .ok (.array size, behind) →
      values.length = size.toInt.toNat →
      ∃ object, Unused image object m ∧
        Gathers object (.array values.toArray) below behind m n ∧
        n.host.heap.objects[object.index]? = some (.array values.toArray) ∧
        ∀ s, s.host.heap.objects[object.index]? = some (.array values.toArray) →
          HasElements image object values s ∧
            Matches image object (fun size => decide (size = values.length)) (fun _ _ => false) s) ∧
    ∀ name arity behind, fetch image m.next = .ok (.aggregate name arity, behind) →
      values.length = arity.toInt.toNat →
      ∃ object bytes tag, image.stringAt name = .ok bytes ∧ Unused image object m ∧
        Gathers object (.aggregate tag values.toArray) below behind m n ∧
        n.host.heap.objects[object.index]? = some (.aggregate tag values.toArray) ∧
        ∀ s, s.host.heap.objects[object.index]? = some (.aggregate tag values.toArray) →
          HasElements image object values s ∧
            Matches image object (fun _ => false) (fun other size =>
              decide (size = values.length ∧ other.take 5 = bytes.toList.take 5)) s := by
  constructor
  · intro size behind fetched all
    have gathers := execute_array live all (executed_of_advance fetched made)
    refine ⟨_, unused_next image m, gathers, gathers.leads, fun s leads => ⟨?_, ?_⟩⟩
    · exact hasElements leads nofun rfl fun position => List.getElem?_toArray
    · exact matches_array leads
  · intro name arity behind fetched all
    obtain ⟨bytes, tag, found, tagged, gathers⟩ :=
      execute_aggregate live all (executed_of_advance fetched made)
    refine ⟨_, bytes, tag, found, unused_next image m, gathers, gathers.leads,
      fun s leads => ⟨?_, ?_⟩⟩
    · exact hasElements leads nofun rfl fun position => List.getElem?_toArray
    · exact matches_aggregate tagged leads

/-! ### Questions in a run -/

section Asks

variable {turns : Nat}

/-- Whether the instruction is next after so many turns, with these words on top of the stack. -/
def asks (image : Image) (turns : Nat) (instruction : Instruction) (taken : List Value)
    (m : Machine Workspace) : Bool :=
  (fetch image (afterTurns image turns m).next).toOption.map (·.1) == some instruction &&
    taken.isPrefixOf (afterTurns image turns m).stack.live.toList

/-- What has been checked by computation, as the statement about the machine: the next instruction
is this one, and these words lie on top. -/
theorem exists_of_asks (asked : asks image turns instruction taken m = true) :
    ∃ behind rest, fetch image (afterTurns image turns m).next = .ok (instruction, behind) ∧
      (afterTurns image turns m).stack.live.toList = taken ++ rest := by
  rw [asks, Bool.and_eq_true, beq_iff_eq, List.isPrefixOf_iff_prefix] at asked
  obtain ⟨next, rest, live⟩ := asked
  cases fetched : fetch image (afterTurns image turns m).next with
  | error cause =>
    rw [fetched] at next
    cases next
  | ok found =>
    obtain ⟨_, behind⟩ := found
    rw [fetched] at next
    cases next
    exact ⟨behind, rest, rfl, live.symm⟩

/-- Where a question is asked, its answer is on top of the stack after the turn. -/
theorem Replaces.answer
    (replaces : Replaces image (afterTurns image turns m) instruction taken given)
    (asked : asks image turns instruction taken m = true) :
    (afterTurns image (turns + 1) m).stack.live[0]? = some given := by
  obtain ⟨behind, rest, fetched, live⟩ := exists_of_asks asked
  obtain ⟨stack, left, advanced⟩ := replaces behind rest fetched live
  rw [afterTurns_of_ok advanced, ← Array.getElem?_toList, left]
  rfl

/-- Where a question is asked that is refused, the turn faults. -/
theorem Refuses.fault (refuses : Refuses image (afterTurns image turns m) instruction taken)
    (asked : asks image turns instruction taken m = true) :
    ∃ cause t, advance image (afterTurns image turns m) = .error cause t := by
  obtain ⟨behind, rest, fetched, live⟩ := exists_of_asks asked
  exact refuses behind rest fetched live

end Asks

/-- A program that makes an array of two numbers, and of this array and another number an
aggregate. It asks the aggregate whether it has its own name, another name, or none, and for its
length and its first field. The answer to the last question is the array; it asks this one
whether it is an array, for its last element, and for one more. -/
def nestedAggregates : Image where
  strings := "Pair".toUTF8.data.push 0 ++ "Part".toUTF8.data.push 0
  publics := []
  code := (([.enter 2 0, .constant 5, .constant 6, .array 2, .constant 7, .aggregate 0 2,
    .duplicate, .matchAggregate 0 2, .drop, .duplicate, .matchAggregate 5 2, .drop,
    .duplicate, .matchArray 2, .drop, .duplicate, .length, .drop, .constant 0, .element,
    .duplicate, .matchArray 2, .drop, .duplicate, .constant 1, .element, .drop,
    .constant 2, .element] : List Instruction).flatMap Instruction.encode).toArray
  globals := 0

/-- What the program asks, and after how many turns. -/
def nestedQuestions : List (Nat × Instruction × List Value) :=
  [(7, .matchAggregate 0 2, [.ref ⟨1⟩]), (10, .matchAggregate 5 2, [.ref ⟨1⟩]),
    (13, .matchArray 2, [.ref ⟨1⟩]), (16, .length, [.ref ⟨1⟩]),
    (19, .element, [.scalar 0, .ref ⟨1⟩]), (21, .matchArray 2, [.ref ⟨0⟩]),
    (25, .element, [.scalar 1, .ref ⟨0⟩]), (28, .element, [.scalar 2, .ref ⟨0⟩])]

/-- How the program runs, by execution: where the array and the aggregate are made, of which words,
that neither is written to before the end, and that each question comes up. -/
theorem exists_run_nestedAggregates :
    ∃ first,
      (Machine.start nestedAggregates 16 .boundless (Workspace.ofInput [] {})).2 = .ok first ∧
      executes? nestedAggregates (afterTurns nestedAggregates 3 first) = some (.array 2) ∧
      (afterTurns nestedAggregates 3 first).stack.live.toList =
        [.scalar 5, .scalar 6].reverse ++
          (afterTurns nestedAggregates 1 first).stack.live.toList ∧
      (afterTurns nestedAggregates 4 first).stack.live[0]? = some (.ref ⟨0⟩) ∧
      (∀ turns < 29, 4 ≤ turns → (afterTurns nestedAggregates turns first).host.heap.objects[0]? =
        (afterTurns nestedAggregates 4 first).host.heap.objects[0]?) ∧
      executes? nestedAggregates (afterTurns nestedAggregates 5 first) =
        some (.aggregate 0 2) ∧
      (afterTurns nestedAggregates 5 first).stack.live.toList =
        [.ref ⟨0⟩, .scalar 7].reverse ++
          (afterTurns nestedAggregates 1 first).stack.live.toList ∧
      (afterTurns nestedAggregates 6 first).stack.live[0]? = some (.ref ⟨1⟩) ∧
      (∀ turns < 29, 6 ≤ turns → (afterTurns nestedAggregates turns first).host.heap.objects[1]? =
        (afterTurns nestedAggregates 6 first).host.heap.objects[1]?) ∧
      ∀ question ∈ nestedQuestions,
        asks nestedAggregates question.1 question.2.1 question.2.2 first = true :=
  ⟨_, rfl, by decide +kernel, by decide +kernel, by decide +kernel, by decide +kernel,
    by decide +kernel, by decide +kernel, by decide +kernel, by decide +kernel, by decide +kernel⟩

/-- A name of the program and the tag it has, from what can be computed: that there is a string,
and that it can be made a tag. -/
theorem exists_tag_nestedAggregates {offset : Int32} {name : Array UInt8}
    (named : (nestedAggregates.stringAt offset).toOption = some name)
    (tagged : (Tag.ofName name.toList).toOption.isSome) :
    nestedAggregates.stringAt offset = .ok name ∧ ∃ tag, Tag.ofName name.toList = .ok tag := by
  constructor
  · cases found : nestedAggregates.stringAt offset with
    | error cause =>
      rw [found] at named
      cases named
    | ok bytes =>
      rw [found] at named
      exact congrArg Except.ok (Option.some.inj named)
  · cases known : Tag.ofName name.toList with
    | error cause =>
      rw [known] at tagged
      cases tagged
    | ok tag => exact ⟨tag, rfl⟩

/-- The array and the aggregate are what they were made as until the end, so every question has the
answer that is due to them, and the element that the array does not have is refused. -/
theorem aggregates_match_only_themselves_nestedAggregates :
    ∃ first,
      (Machine.start nestedAggregates 16 .boundless (Workspace.ofInput [] {})).2 = .ok first ∧
      (∀ turns < 29, 4 ≤ turns →
        HasElements nestedAggregates ⟨0⟩ [.scalar 5, .scalar 6]
          (afterTurns nestedAggregates turns first) ∧
        Matches nestedAggregates ⟨0⟩ (fun size => decide (size = 2)) (fun _ _ => false)
          (afterTurns nestedAggregates turns first)) ∧
      (∀ turns < 29, 6 ≤ turns →
        HasElements nestedAggregates ⟨1⟩ [.ref ⟨0⟩, .scalar 7]
          (afterTurns nestedAggregates turns first) ∧
        Matches nestedAggregates ⟨1⟩ (fun _ => false)
          (fun other size => decide (size = 2 ∧ other.take 5 = "Pair".toUTF8.data.toList))
          (afterTurns nestedAggregates turns first)) ∧
      [8, 11, 14, 17, 20, 22, 26].map
          (fun turns => (afterTurns nestedAggregates turns first).stack.live[0]?) =
        [some (.scalar 1), some (.scalar 0), some (.scalar 0), some (.scalar 2), some (.ref ⟨0⟩),
          some (.scalar 1), some (.scalar 6)] ∧
      ∃ cause t, advance nestedAggregates (afterTurns nestedAggregates 28 first) =
        .error cause t := by
  obtain ⟨first, begun, array, words, onTop, kept, aggregate, fields, onTop', kept', asked⟩ :=
    exists_run_nestedAggregates
  have ownName : (nestedAggregates.stringAt 0).toOption = some "Pair".toUTF8.data := by
    decide +kernel
  have otherName : (nestedAggregates.stringAt 5).toOption = some "Part".toUTF8.data := by
    decide +kernel
  obtain ⟨own, tag, tagged⟩ := exists_tag_nestedAggregates ownName (by decide +kernel)
  obtain ⟨other, tag', tagged'⟩ := exists_tag_nestedAggregates otherName (by decide +kernel)
  have arrays : ∀ turns < 29, 4 ≤ turns →
      HasElements nestedAggregates ⟨0⟩ [.scalar 5, .scalar 6]
        (afterTurns nestedAggregates turns first) ∧
      Matches nestedAggregates ⟨0⟩ (fun size => decide (size = 2)) (fun _ _ => false)
        (afterTurns nestedAggregates turns first) := by
    obtain ⟨⟨_, fetched⟩, made⟩ := executes?_eq_some array
    obtain ⟨object, _, gathers, leads, whenever⟩ :=
      (aggregates_match_only_themselves words made).1 2 _ fetched rfl
    obtain rfl : object = ⟨0⟩ := by
      cases gathers.onTop.symm.trans onTop
      rfl
    exact fun turns early late => whenever _ ((kept turns early late).trans leads)
  have aggregates : ∀ turns < 29, 6 ≤ turns →
      HasElements nestedAggregates ⟨1⟩ [.ref ⟨0⟩, .scalar 7]
        (afterTurns nestedAggregates turns first) ∧
      Matches nestedAggregates ⟨1⟩ (fun _ => false)
        (fun other size => decide (size = 2 ∧ other.take 5 = "Pair".toUTF8.data.toList))
        (afterTurns nestedAggregates turns first) := by
    obtain ⟨⟨_, fetched⟩, made⟩ := executes?_eq_some aggregate
    obtain ⟨object, bytes, _, found, _, gathers, leads, whenever⟩ :=
      (aggregates_match_only_themselves fields made).2 0 2 _ fetched rfl
    obtain rfl : object = ⟨1⟩ := by
      cases gathers.onTop.symm.trans onTop'
      rfl
    obtain rfl : bytes = "Pair".toUTF8.data := Except.ok.inj (found.symm.trans own)
    exact fun turns early late => whenever _ ((kept' turns early late).trans leads)
  have question {turns : Nat} {instruction : Instruction} {taken : List Value}
      (listed : (turns, instruction, taken) ∈ nestedQuestions) :
      asks nestedAggregates turns instruction taken first = true :=
    asked (turns, instruction, taken) listed
  refine ⟨first, begun, arrays, aggregates, ?_, ?_⟩
  · obtain ⟨_, ownTest⟩ := aggregates 7 (by decide) (by decide)
    obtain ⟨_, otherTest⟩ := aggregates 10 (by decide) (by decide)
    obtain ⟨_, arrayTest⟩ := aggregates 13 (by decide) (by decide)
    obtain ⟨measured, _⟩ := aggregates 16 (by decide) (by decide)
    obtain ⟨read, _⟩ := aggregates 19 (by decide) (by decide)
    obtain ⟨_, arrayTest'⟩ := arrays 21 (by decide) (by decide)
    obtain ⟨read', _⟩ := arrays 25 (by decide) (by decide)
    rw [List.map_cons, (ownTest.aggregate 0 2 (by decide) _ tag own tagged).answer
        (question (by decide)),
      List.map_cons, (otherTest.aggregate 5 2 (by decide) _ tag' other tagged').answer
        (question (by decide)),
      List.map_cons, (arrayTest.array 2 (by decide)).answer (question (by decide)),
      List.map_cons, (measured.length (by decide)).answer (question (by decide)),
      List.map_cons, (read.element 0 (by decide) _ rfl).answer (question (by decide)),
      List.map_cons, (arrayTest'.array 2 (by decide)).answer (question (by decide)),
      List.map_cons, (read'.element 1 (by decide) _ rfl).answer (question (by decide)),
      List.map_nil]
    decide +kernel
  · obtain ⟨elements, _⟩ := arrays 28 (by decide) (by decide)
    exact (elements.beyond 2 (by decide)).fault (question (by decide))

end Machine

end BytecodeMachine
