import BytecodeMachine.Proofs.Stack
/-!
# No request leaves the storage

The operations on a stack once more, as requests to words and a top that need not be inside,
with no safeguard but the checks that belong to the operation. A word that is not there can
neither be read nor written, a range that is not inside cannot be taken, and a size cannot be
taken from a smaller one: each of these is a trap, for which no fault stands.

On a stack no request traps, and it does what the operation does. The top of a stack is never
behind its storage, and this is all that the checks leave to be known.
-/
namespace BytecodeMachine

/-- The difference of two sizes, if it is not negative. -/
def minus? (size other : Nat) : Option Nat := if other ≤ size then some (size - other) else none

/-- The subtraction does not trap where it stays at zero or above. -/
theorem minus?_eq_some {size other : Nat} (enough : other ≤ size) :
    minus? size other = some (size - other) := if_pos enough

/-- Words and a top, with no relation between the two. -/
structure Cells where
  words : Array Value
  top : Nat

namespace Cells

/-- The number of words from the top on. -/
def size? (cells : Cells) : Option Nat := minus? cells.words.size cells.top

/-- The words with the one at an index replaced. -/
def write? (cells : Cells) (index : Nat) (value : Value) : Option (Array Value) :=
  if index < cells.words.size then some (cells.words.setIfInBounds index value) else none

/-- The words from one index up to another. -/
def range? (cells : Cells) (start stop : Nat) : Option (Array Value) :=
  if start ≤ stop ∧ stop ≤ cells.words.size then some (cells.words.extract start stop) else none

/-- The words with those from one index up to another replaced by as many. -/
def overwrite? (cells : Cells) (start stop : Nat) (values : List Value) : Option (Array Value) :=
  if start ≤ stop ∧ stop ≤ cells.words.size ∧ start + values.length = stop then
    some (overwriteWords cells.words start values)
  else none

variable {words : Array Value} {top index start stop : Nat} {value : Value} {values : List Value}

/-- A top inside the array leaves a number of live words to count. -/
theorem size?_mk (inside : top ≤ words.size) : size? ⟨words, top⟩ = some (words.size - top) :=
  minus?_eq_some inside

/-- A write inside the array does not trap. -/
theorem write?_mk (inside : index < words.size) :
    write? ⟨words, top⟩ index value = some (words.setIfInBounds index value) := if_pos inside

/-- A range with its ends in order, inside the array, does not trap. -/
theorem range?_mk (ordered : start ≤ stop) (inside : stop ≤ words.size) :
    range? ⟨words, top⟩ start stop = some (words.extract start stop) := if_pos ⟨ordered, inside⟩

/-- Nor does overwriting a range with as many values as it is long. -/
theorem overwrite?_mk (inside : stop ≤ words.size) (fits : start + values.length = stop) :
    overwrite? ⟨words, top⟩ start stop values = some (overwriteWords words start values) :=
  if_pos ⟨by omega, inside, fits⟩

end Cells

namespace Stack

/-- The words and the top of a stack. -/
def cells (stack : Stack) : Cells := ⟨stack.words, stack.top⟩

/-- What can be asked of a stack. -/
inductive Request
  | push (value : Value)
  | pop
  | peek (depth : Nat)
  | drop (count : Nat)
  | reserve (count : Nat)
  | reverse (count : Nat)
  | window (count : Nat)
  | setTop (index : Nat)
  | get (index : Nat)
  | set (index : Nat) (value : Value)

namespace Request

/-- The operation, with the words that it answers. -/
def run : Request → Action Stack (Array Value)
  | .push value => do
    Stack.push value
    return #[]
  | .pop => return #[← Stack.pop]
  | .peek depth => return #[← Action.observe (Stack.peek depth)]
  | .drop count => do
    Stack.drop count
    return #[]
  | .reserve count => do
    Stack.reserve count
    return #[]
  | .reverse count => do
    Stack.reverse count
    return #[]
  | .window count => Action.observe (Stack.window count)
  | .setTop index => do
    Stack.setTop index
    return #[]
  | .get index => return #[← Action.observe (Stack.get index)]
  | .set index value => do
    Stack.set index value
    return #[]

/-- What the request does to cells, if it does not trap: the check of the operation first, and
then its accesses one by one. -/
def attempt : Request → Cells → Option (EStateM.Result Fault Cells (Array Value))
  | .push value, cells =>
    if cells.top = 0 then some (.error (.stack .pushOnFull) cells)
    else do
      let top ← minus? cells.top 1
      let words ← cells.write? top value
      some (.ok #[] ⟨words, top⟩)
  | .pop, cells => do
    let size ← cells.size?
    if size = 0 then some (.error (.stack .popOnEmpty) cells)
    else do
      let value ← cells.words[cells.top]?
      some (.ok #[value] ⟨cells.words, cells.top + 1⟩)
  | .peek depth, cells => do
    let size ← cells.size?
    if size ≤ depth then some (.error (.stack (.peekBeyond depth size)) cells)
    else do
      let value ← cells.words[cells.top + depth]?
      some (.ok #[value] cells)
  | .drop count, cells => do
    let size ← cells.size?
    if size < count then some (.error (.stack (.dropBeyond count size)) cells)
    else some (.ok #[] ⟨cells.words, cells.top + count⟩)
  | .reserve count, cells =>
    if cells.top < count then some (.error (.stack (.reserveBeyond count)) cells)
    else do
      let top ← minus? cells.top count
      let words ← cells.overwrite? top cells.top (List.replicate count Value.zero)
      some (.ok #[] ⟨words, top⟩)
  | .reverse count, cells => do
    let size ← cells.size?
    if size < count then some (.error (.stack (.reverseBeyond count size)) cells)
    else do
      let range ← cells.range? cells.top (cells.top + count)
      let words ← cells.overwrite? cells.top (cells.top + count) range.toList.reverse
      some (.ok #[] ⟨words, cells.top⟩)
  | .window count, cells => do
    let size ← cells.size?
    if size < count then some (.error (.stack (.windowBeyond count size)) cells)
    else do
      let range ← cells.range? cells.top (cells.top + count)
      some (.ok range cells)
  | .setTop index, cells =>
    if index < cells.top ∨ cells.words.size < index then
      some (.error (.stack (.topOutside index cells.top cells.words.size)) cells)
    else some (.ok #[] ⟨cells.words, index⟩)
  | .get index, cells =>
    if index < cells.top ∨ cells.words.size ≤ index then
      some (.error (.stack (.readOutside index cells.top cells.words.size)) cells)
    else do
      let value ← cells.words[index]?
      some (.ok #[value] cells)
  | .set index value, cells =>
    if index < cells.top ∨ cells.words.size ≤ index then
      some (.error (.stack (.writeOutside index cells.top cells.words.size)) cells)
    else do
      let words ← cells.write? index value
      some (.ok #[] ⟨words, cells.top⟩)

/-- The outcome of an operation, on cells. -/
def onCells {α : Type} : EStateM.Result Fault Stack α → EStateM.Result Fault Cells α
  | .ok a stack => .ok a stack.cells
  | .error cause stack => .error cause stack.cells

/-- Behind the guard the top is not zero, so that the subtraction and the write under it both go
through. In front of it the stack refuses on its own. -/
theorem attempt_push (value : Value) (stack : Stack) :
    attempt (.push value) stack.cells = some (onCells (run (.push value) stack)) := by
  obtain ⟨words, top, inside⟩ := stack
  by_cases full : top = 0
  · simp [attempt, run, Stack.push, cells, onCells, bind, EStateM.bind, full]
  · have room : 0 < top := Nat.pos_of_ne_zero full
    have below : top - 1 < words.size := by omega
    simp [attempt, run, Stack.push, cells, onCells, bind, EStateM.bind, pure, EStateM.pure, full,
      room, minus?_eq_some room, Cells.write?_mk below, Array.setIfInBounds, below]

/-- Behind the guard there is a live word, so the top is an index into the array. Where the guard
refuses no word has been asked for. -/
theorem attempt_pop (stack : Stack) :
    attempt .pop stack.cells = some (onCells (run .pop stack)) := by
  obtain ⟨words, top, inside⟩ := stack
  by_cases present : top < words.size
  · have some : words.size - top ≠ 0 := by omega
    simp [attempt, run, Stack.pop, cells, onCells, bind, EStateM.bind, pure, EStateM.pure,
      Cells.size?_mk inside, present, some]
  · have none : words.size - top = 0 := by omega
    simp [attempt, run, Stack.pop, cells, onCells, bind, EStateM.bind, Cells.size?_mk inside,
      present, none]

/-- A depth below the number of live words, added to the top, is an index into the array. Both ways
to say that there are enough of them are compared first. -/
theorem attempt_peek (depth : Nat) (stack : Stack) :
    attempt (.peek depth) stack.cells = some (onCells (run (.peek depth) stack)) := by
  obtain ⟨words, top, inside⟩ := stack
  by_cases present : depth < words.size - top
  · have there : top + depth < words.size := by omega
    have few : ¬ words.size - top ≤ depth := Nat.not_le.mpr present
    simp [attempt, run, Stack.peek, Action.observe, cells, onCells, bind, EStateM.bind, pure,
      EStateM.pure, Cells.size?_mk inside, -Nat.sub_le_iff_le_add, present, few, there]
  · have few : words.size - top ≤ depth := Nat.not_lt.mp present
    simp [attempt, run, Stack.peek, Action.observe, cells, onCells, bind, EStateM.bind,
      Cells.size?_mk inside, -Nat.sub_le_iff_le_add, present, few, Stack.size, bottom]

/-- The guard compares with the live words, which can be counted because the top is inside. Then
the new top is inside too, and no index is used. -/
theorem attempt_drop (count : Nat) (stack : Stack) :
    attempt (.drop count) stack.cells = some (onCells (run (.drop count) stack)) := by
  obtain ⟨words, top, inside⟩ := stack
  by_cases present : count ≤ words.size - top
  · have enough : ¬ words.size - top < count := Nat.not_lt.mpr present
    simp [attempt, run, Stack.drop, cells, onCells, bind, EStateM.bind, pure, EStateM.pure,
      Cells.size?_mk inside, present, enough]
  · have few : words.size - top < count := Nat.lt_of_not_le present
    simp [attempt, run, Stack.drop, cells, onCells, bind, EStateM.bind, Cells.size?_mk inside,
      present, few]

/-- The guard compares with the top itself, so the new top does not fall below zero and the zeros
fit between the two. -/
theorem attempt_reserve (count : Nat) (stack : Stack) :
    attempt (.reserve count) stack.cells = some (onCells (run (.reserve count) stack)) := by
  obtain ⟨words, top, inside⟩ := stack
  by_cases room : count ≤ top
  · have enough : ¬ top < count := Nat.not_lt.mpr room
    have fits : top - count + (List.replicate count Value.zero).length = top := by
      rw [List.length_replicate]
      omega
    simp [attempt, run, Stack.reserve, cells, onCells, bind, EStateM.bind, pure, EStateM.pure,
      minus?_eq_some room, Cells.overwrite?_mk inside fits, room, enough]
  · have few : top < count := Nat.lt_of_not_le room
    simp [attempt, run, Stack.reserve, cells, onCells, bind, EStateM.bind, room, few]

/-- Behind the guard the words reversed lie inside the array. They are as many as the range is
long, since reversing keeps the length. -/
theorem attempt_reverse (count : Nat) (stack : Stack) :
    attempt (.reverse count) stack.cells = some (onCells (run (.reverse count) stack)) := by
  obtain ⟨words, top, inside⟩ := stack
  by_cases present : count ≤ words.size - top
  · have enough : ¬ words.size - top < count := Nat.not_lt.mpr present
    have stop : top + count ≤ words.size := by omega
    have fits : top + (words.extract top (top + count)).toList.reverse.length = top + count := by
      rw [List.length_reverse, Array.length_toList, Array.size_extract]
      omega
    simp [attempt, run, Stack.reverse, cells, onCells, bind, EStateM.bind, pure, EStateM.pure,
      Cells.size?_mk inside, Cells.range?_mk (Nat.le_add_right top count) stop,
      Cells.overwrite?_mk stop fits, -Array.toList_extract, present, enough]
  · have few : words.size - top < count := Nat.lt_of_not_le present
    simp [attempt, run, Stack.reverse, cells, onCells, bind, EStateM.bind, Cells.size?_mk inside,
      present, few]

/-- Behind the guard the range shown lies inside the array: it begins at the top and ends where the
live words do, or before. -/
theorem attempt_window (count : Nat) (stack : Stack) :
    attempt (.window count) stack.cells = some (onCells (run (.window count) stack)) := by
  obtain ⟨words, top, inside⟩ := stack
  by_cases present : count ≤ words.size - top
  · have enough : ¬ words.size - top < count := Nat.not_lt.mpr present
    have stop : top + count ≤ words.size := by omega
    simp [attempt, run, Stack.window, Stack.size, bottom, Action.observe, cells, onCells,
      Cells.size?_mk inside, Cells.range?_mk (Nat.le_add_right top count) stop, present, enough]
  · have few : words.size - top < count := Nat.lt_of_not_le present
    simp [attempt, run, Stack.window, Stack.size, bottom, Action.observe, cells, onCells,
      Cells.size?_mk inside, present, few]

/-- The guard is the invariant for the new top, so there is nothing that could trap. Either half of
it may fail, and the answer is the same fault. -/
theorem attempt_setTop (index : Nat) (stack : Stack) :
    attempt (.setTop index) stack.cells = some (onCells (run (.setTop index) stack)) := by
  obtain ⟨words, top, inside⟩ := stack
  by_cases live : top ≤ index ∧ index ≤ words.size
  · have inRange : ¬ (index < top ∨ words.size < index) := by omega
    simp [attempt, run, Stack.setTop, cells, onCells, bind, EStateM.bind, pure, EStateM.pure, live,
      inRange]
  · have outside : index < top ∨ words.size < index := by omega
    simp [attempt, run, Stack.setTop, cells, onCells, bind, EStateM.bind, live, outside]

/-- The guard asks for an index into the array, and also that it is not above the top. Only the
first half is needed for the reading itself. -/
theorem attempt_get (index : Nat) (stack : Stack) :
    attempt (.get index) stack.cells = some (onCells (run (.get index) stack)) := by
  obtain ⟨words, top, inside⟩ := stack
  by_cases live : top ≤ index ∧ index < words.size
  · have inRange : ¬ (index < top ∨ words.size ≤ index) := by omega
    simp [attempt, run, Stack.get, Action.observe, cells, onCells, bind, EStateM.bind, pure,
      EStateM.pure, live, inRange]
  · have outside : index < top ∨ words.size ≤ index := by omega
    simp [attempt, run, Stack.get, Action.observe, cells, onCells, bind, EStateM.bind, live,
      outside, bottom]

/-- The guard is the one for reading, so the word that is written has an index into the array as
well. -/
theorem attempt_set (index : Nat) (value : Value) (stack : Stack) :
    attempt (.set index value) stack.cells = some (onCells (run (.set index value) stack)) := by
  obtain ⟨words, top, inside⟩ := stack
  by_cases live : top ≤ index ∧ index < words.size
  · have inRange : ¬ (index < top ∨ words.size ≤ index) := by omega
    simp [attempt, run, Stack.set, cells, onCells, bind, EStateM.bind, pure, EStateM.pure,
      Cells.write?_mk live.2, Array.setIfInBounds, live, inRange]
  · have outside : index < top ∨ words.size ≤ index := by omega
    simp [attempt, run, Stack.set, cells, onCells, bind, EStateM.bind, live, outside]

/-- On a stack no request traps, and it does what the operation does. There is one case for each
request, and each rests on what its own guard has made sure of. -/
theorem attempt_eq_run (request : Request) (stack : Stack) :
    request.attempt stack.cells = some (onCells (request.run stack)) := by
  cases request with
  | push value => exact attempt_push value stack
  | pop => exact attempt_pop stack
  | peek depth => exact attempt_peek depth stack
  | drop count => exact attempt_drop count stack
  | reserve count => exact attempt_reserve count stack
  | reverse count => exact attempt_reverse count stack
  | window count => exact attempt_window count stack
  | setTop index => exact attempt_setTop index stack
  | get index => exact attempt_get index stack
  | set index value => exact attempt_set index value stack

end Request

end Stack

end BytecodeMachine
