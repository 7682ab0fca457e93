import BytecodeMachine.Action
/-!
# The operand stack

A stack has a fixed number of words and grows toward lower indices: the live words
are those from `top` to the end. Requests that do not fit are faults, and a fault
leaves the stack as it was. Nothing is clamped and the storage never grows.

Its words are allocated when it is made. Whether there is memory for them is not for
this library to say: an `Allocator` answers that, and it may refuse.
-/
namespace BytecodeMachine

structure Stack where
  words : Array Value
  /-- The index of the word that was pushed last. -/
  top : Nat
  top_le : top ≤ words.size

/-- Whoever hands out memory. Nothing is known of its answers: how much memory there is
depends on the system and on the moment. -/
structure Allocator where
  /-- Whether it has room for so many words of an area. -/
  grants (count : Nat) (area : Area) : Bool

/-- An allocator that never refuses. -/
def Allocator.boundless : Allocator where
  grants _ _ := true

/-- Fresh words, all of them zero. As many as would fill the address space are refused before
the allocator is asked, and it is not asked for no words at all. -/
def zeroWords (allocator : Allocator) (count : Nat) (area : Area) : Answer (Array Value) :=
  if 9223372036854775808 ≤ count * 16 then
    .error (.during (.allocating count area) (.machine .unaddressable))
  else if count = 0 ∨ allocator.grants count area then .ok (Array.replicate count Value.zero)
  else .error (.during (.allocating count area) (.machine .outOfMemory))

/-- Writes words over an area from an index upwards. -/
def overwriteWords (words : Array Value) (start : Nat) : List Value → Array Value
  | [] => words
  | v :: rest => overwriteWords (words.setIfInBounds start v) (start + 1) rest

/-- Overwriting goes word by word, each one in place, so the array keeps its size. What would lie
behind the end is not written. -/
@[simp] theorem size_overwriteWords (words : Array Value) (start : Nat) (values : List Value) :
    (overwriteWords words start values).size = words.size := by
  induction values generalizing words start with
  | nil => rfl
  | cons v rest shorter => simp [overwriteWords, shorter]

namespace Stack

/-- An empty stack of some capacity. -/
def ofCapacity (capacity : Nat) (allocator : Allocator) : Answer Stack := do
  let words ← zeroWords allocator capacity .stack
  return ⟨words, words.size, Nat.le_refl _⟩

def capacity (stack : Stack) : Nat := stack.words.size

/-- The index behind the last word. -/
def bottom (stack : Stack) : Nat := stack.words.size

/-- The number of live words. -/
def size (stack : Stack) : Nat := stack.bottom - stack.top

def isEmpty (stack : Stack) : Bool := stack.size == 0

/-- The live words, the top first. -/
def live (stack : Stack) : Array Value := stack.words.extract stack.top stack.words.size

def push (value : Value) : Action Stack Unit := fun ⟨words, top, inside⟩ =>
  if room : 0 < top then
    .ok () ⟨words.set (top - 1) value (by omega), top - 1, by simp; omega⟩
  else .error (.stack .pushOnFull) ⟨words, top, inside⟩

def pop : Action Stack Value := fun ⟨words, top, inside⟩ =>
  if present : top < words.size then .ok words[top] ⟨words, top + 1, present⟩
  else .error (.stack .popOnEmpty) ⟨words, top, inside⟩

/-- The word `depth` below the top. -/
def peek (depth : Nat) (stack : Stack) : Answer Value :=
  if present : depth < stack.words.size - stack.top then
    .ok (stack.words[stack.top + depth])
  else .error (.stack (.peekBeyond depth stack.size))

/-- Discards the topmost words. -/
def drop (count : Nat) : Action Stack Unit := fun ⟨words, top, inside⟩ =>
  if present : count ≤ words.size - top then .ok () ⟨words, top + count, by omega⟩
  else .error (.stack (.dropBeyond count (words.size - top))) ⟨words, top, inside⟩

/-- Adds words that are zero. -/
def reserve (count : Nat) : Action Stack Unit := fun ⟨words, top, inside⟩ =>
  if room : count ≤ top then
    .ok () ⟨overwriteWords words (top - count) (List.replicate count Value.zero), top - count,
      by simp; omega⟩
  else .error (.stack (.reserveBeyond count)) ⟨words, top, inside⟩

/-- Reverses the order of the topmost words. -/
def reverse (count : Nat) : Action Stack Unit := fun ⟨words, top, inside⟩ =>
  if present : count ≤ words.size - top then
    .ok () ⟨overwriteWords words top (words.extract top (top + count)).toList.reverse, top,
      by simpa using inside⟩
  else .error (.stack (.reverseBeyond count (words.size - top))) ⟨words, top, inside⟩

/-- The topmost words, the top first. -/
def window (count : Nat) (stack : Stack) : Answer (Array Value) :=
  if count ≤ stack.size then .ok (stack.words.extract stack.top (stack.top + count))
  else .error (.stack (.windowBeyond count stack.size))

/-- Discards every word above an index. -/
def setTop (index : Nat) : Action Stack Unit := fun ⟨words, top, inside⟩ =>
  if live : top ≤ index ∧ index ≤ words.size then .ok () ⟨words, index, live.2⟩
  else .error (.stack (.topOutside index top words.size)) ⟨words, top, inside⟩

/-- The live word at an index. -/
def get (index : Nat) (stack : Stack) : Answer Value :=
  if live : stack.top ≤ index ∧ index < stack.words.size then .ok stack.words[index]
  else .error (.stack (.readOutside index stack.top stack.bottom))

/-- Replaces the live word at an index. -/
def set (index : Nat) (value : Value) : Action Stack Unit := fun ⟨words, top, inside⟩ =>
  if live : top ≤ index ∧ index < words.size then
    .ok () ⟨words.set index value live.2, top, by simpa using inside⟩
  else .error (.stack (.writeOutside index top words.size)) ⟨words, top, inside⟩

end Stack

end BytecodeMachine
