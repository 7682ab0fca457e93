import BytecodeMachine.Proofs.Action
import BytecodeMachine.Stack
/-!
# What stack operations do

A stack is its words and the index of its top, so each operation is described by what
becomes of the two. The words that are not live take part in this: an operation that
only moves the top keeps them.

`Trade` abstracts from the words an operation handles. It takes a number of words from
the top and leaves a number of words in their place, and everything below is as it was.
Two trades in a row are a trade: what the first one leaves the second one takes first,
and only if that is not enough it reaches further down.
-/
namespace BytecodeMachine

/-- Whether words can be allocated: all of them together fit the address space, and the allocator
has room for them, of which no words need none. -/
def Allocator.HasRoom (allocator : Allocator) (count : Nat) (area : Area) : Prop :=
  count * 16 < 9223372036854775808 ∧ (count = 0 ∨ allocator.grants count area)

/-- The allocator that never refuses has room for whatever fits the address space. -/
theorem Allocator.boundless_hasRoom {count : Nat} {area : Area}
    (addressable : count * 16 < 9223372036854775808) : boundless.HasRoom count area :=
  ⟨addressable, .inr rfl⟩

/-- Words are allocated exactly if there is room for them, and all of them are zero then. Both
refusals are cases of there being no room. -/
theorem zeroWords_eq_ok_iff {allocator : Allocator} {count : Nat} {area : Area}
    {words : Array Value} :
    zeroWords allocator count area = .ok words ↔
      allocator.HasRoom count area ∧ Array.replicate count Value.zero = words := by
  unfold zeroWords
  by_cases unaddressable : 9223372036854775808 ≤ count * 16
  · rw [if_pos unaddressable]
    constructor
    · intro allocated
      cases allocated
    · rintro ⟨⟨addressable, _⟩, _⟩
      exact absurd addressable (Nat.not_lt.mpr unaddressable)
  rw [if_neg unaddressable]
  by_cases granted : count = 0 ∨ allocator.grants count area
  · have room : allocator.HasRoom count area := ⟨Nat.lt_of_not_le unaddressable, granted⟩
    rw [if_pos granted, Except.ok.injEq]
    exact (and_iff_right room).symm
  · rw [if_neg granted]
    constructor
    · intro allocated
      cases allocated
    · rintro ⟨⟨_, room⟩, _⟩
      exact absurd room granted

/-- What allocating words comes to when they are refused: a fault that names how many words of which
area were asked for. -/
def Fault.IsAllocation (cause : Fault) : Prop :=
  ∃ count area, cause = .during (.allocating count area) (.machine .unaddressable) ∨
    cause = .during (.allocating count area) (.machine .outOfMemory)

/-- A refusal names the words that were asked for and the area they were for. There are two: that
of too many words for any allocator, and that of the allocator itself. -/
theorem zeroWords_error {allocator : Allocator} {count : Nat} {area : Area} {cause : Fault}
    (refused : zeroWords allocator count area = .error cause) : cause.IsAllocation := by
  unfold zeroWords at refused
  by_cases unaddressable : 9223372036854775808 ≤ count * 16
  · rw [if_pos unaddressable] at refused
    cases refused
    exact ⟨count, area, .inl rfl⟩
  rw [if_neg unaddressable] at refused
  by_cases granted : count = 0 ∨ allocator.grants count area
  · rw [if_pos granted] at refused
    cases refused
  · rw [if_neg granted] at refused
    cases refused
    exact ⟨count, area, .inr rfl⟩

/-- Overwriting replaces exactly the words that lie in the range and in the area. Proof: induction
on the values, which are written one by one from the start on. -/
theorem getElem?_overwriteWords (words : Array Value) (start : Nat) (values : List Value)
    (index : Nat) :
    (overwriteWords words start values)[index]? =
      if start ≤ index ∧ index < start + values.length ∧ index < words.size then
        values[index - start]?
      else words[index]? := by
  induction values generalizing words start with
  | nil =>
    have outside : ¬ (start ≤ index ∧ index < start + ([] : List Value).length ∧
        index < words.size) := by
      simp only [List.length_nil]
      omega
    rw [if_neg outside]
    rfl
  | cons v rest later =>
    simp only [overwriteWords, later, Array.size_setIfInBounds, List.length_cons]
    by_cases first : index = start
    · -- the first value goes to the start, which the others leave alone
      subst first
      rw [if_neg (by omega), Array.getElem?_setIfInBounds_self, Nat.sub_self]
      by_cases inside : index < words.size
      · rw [if_pos inside, if_pos ⟨Nat.le_refl _, by omega, inside⟩]
        rfl
      · rw [if_neg inside, if_neg (fun range => inside range.2.2),
          Array.getElem?_eq_none (Nat.le_of_not_lt inside)]
    · have same : (start + 1 ≤ index ∧ index < start + 1 + rest.length ∧ index < words.size) ↔
          (start ≤ index ∧ index < start + (rest.length + 1) ∧ index < words.size) := by omega
      rw [ite_congr (propext same) (fun _ => rfl) fun _ => rfl,
        Array.getElem?_setIfInBounds_ne (Ne.symm first)]
      by_cases range : start ≤ index ∧ index < start + (rest.length + 1) ∧ index < words.size
      · obtain ⟨offset, rfl⟩ : ∃ offset, index = start + 1 + offset :=
          ⟨index - (start + 1), by omega⟩
        rw [if_pos range, if_pos range, Nat.add_sub_cancel_left, Nat.add_assoc,
          Nat.add_sub_cancel_left, Nat.add_comm 1, List.getElem?_cons_succ]
      · rw [if_neg range, if_neg range]

/-- Inside an area the guarded way to replace a word is the plain one. -/
theorem setIfInBounds_inside {words : Array Value} {index : Nat} (value : Value)
    (inside : index < words.size) :
    words.setIfInBounds index value = words.set index value inside := by
  rw [Array.setIfInBounds_def, dif_pos inside]

namespace Stack

open BytecodeMachine.Action (dite_eq_ok_iff)

/-- Stacks with the same words and the same top are the same. -/
@[ext]
theorem ext {s t : Stack} (words : s.words = t.words) (top : s.top = t.top) : s = t := by
  cases s
  cases t
  subst words
  subst top
  rfl

variable {s t : Stack} {value : Value} {count index : Nat} {a : Unit}

/-- The stack that has no words on it and has never had any. -/
def empty (capacity : Nat) : Stack where
  words := Array.replicate capacity Value.zero
  top := capacity
  top_le := Nat.le_of_eq Array.size_replicate.symm

/-- If no stack is made, its words were not allocated. Apart from the words there is nothing that a
stack needs. -/
theorem ofCapacity_error {capacity : Nat} {allocator : Allocator} {cause : Fault}
    (refused : ofCapacity capacity allocator = .error cause) : cause.IsAllocation := by
  unfold ofCapacity at refused
  cases filled : zeroWords allocator capacity .stack with
  | error _ =>
    rw [filled] at refused
    cases refused
    exact zeroWords_error filled
  | ok words =>
    rw [filled] at refused
    cases refused

/-- The allocator decides whether a stack is made and has no part in what it is. All words are zero
and none is live, as the top is at the end. -/
theorem ofCapacity_eq_ok_iff {capacity : Nat} {allocator : Allocator} :
    ofCapacity capacity allocator = .ok s ↔
      allocator.HasRoom capacity .stack ∧ empty capacity = s := by
  have made (inside : _) : (⟨Array.replicate capacity Value.zero,
      (Array.replicate capacity Value.zero).size, inside⟩ : Stack) = empty capacity :=
    ext rfl Array.size_replicate
  simp only [ofCapacity, Answer.bind_eq_ok_iff, zeroWords_eq_ok_iff]
  constructor
  · rintro ⟨_, ⟨room, rfl⟩, ⟨⟩⟩
    exact ⟨room, (made _).symm⟩
  · rintro ⟨room, rfl⟩
    exact ⟨_, ⟨room, rfl⟩, congrArg Except.ok (made _)⟩

/-- A push is answered if there is an index below the top. That index becomes the top and holds
the word; the precondition is what makes the two equations of the indices agree. -/
theorem push_eq_ok_iff :
    push value s = .ok a t ↔
      t.top + 1 = s.top ∧ t.words = s.words.setIfInBounds t.top value := by
  obtain ⟨words, top, inside⟩ := s
  refine dite_eq_ok_iff.trans ?_
  constructor
  · rintro ⟨room, -, rfl⟩
    have inside' : top - 1 < words.size := by omega
    exact ⟨Nat.sub_add_cancel room, (setIfInBounds_inside _ inside').symm⟩
  · rintro ⟨rfl, pushed⟩
    refine ⟨Nat.succ_pos _, rfl, ext ?_ (Nat.add_sub_cancel ..)⟩
    rw [pushed]
    exact (setIfInBounds_inside value inside).symm

/-- A pop is answered with the word on top, which is there exactly if the top lies within the
area. The word itself stays where it is; only the top moves. -/
theorem pop_eq_ok_iff :
    pop s = .ok value t ↔
      s.words[s.top]? = some value ∧ t.top = s.top + 1 ∧ t.words = s.words := by
  obtain ⟨words, top, inside⟩ := s
  refine dite_eq_ok_iff.trans ?_
  constructor
  · rintro ⟨present, rfl, rfl⟩
    exact ⟨Array.getElem?_eq_getElem present, rfl, rfl⟩
  · rintro ⟨found, moved, same⟩
    obtain ⟨present, word⟩ := Array.getElem?_eq_some_iff.mp found
    exact ⟨present, word, ext same.symm moved.symm⟩

/-- A peek is answered with the word so far below the top. The question is whether that many
words are live, which is whether the index lies within the area. -/
theorem peek_eq_ok_iff :
    s.peek count = .ok value ↔ s.words[s.top + count]? = some value := by
  refine Answer.dite_eq_ok_iff.trans ?_
  constructor
  · rintro ⟨present, rfl⟩
    exact Array.getElem?_eq_getElem _
  · intro found
    obtain ⟨inside, word⟩ := Array.getElem?_eq_some_iff.mp found
    exact ⟨by omega, word⟩

/-- Words are dropped by moving the top. No more can be dropped than there are, and that need not
be said: the top of a stack never lies behind its last word. -/
theorem drop_eq_ok_iff :
    drop count s = .ok a t ↔ t.top = s.top + count ∧ t.words = s.words := by
  obtain ⟨words, top, inside⟩ := s
  refine dite_eq_ok_iff.trans ?_
  constructor
  · rintro ⟨_, -, rfl⟩
    exact ⟨rfl, rfl⟩
  · rintro ⟨moved, same⟩
    have present : top + count ≤ words.size := by
      have bound := t.top_le
      rwa [moved, same] at bound
    exact ⟨by omega, rfl, ext same.symm moved.symm⟩

/-- Words are reserved if so many fit above the top. They are zero, whatever was there; the new top
is where the first one is written. -/
theorem reserve_eq_ok_iff :
    reserve count s = .ok a t ↔
      t.top + count = s.top ∧
        t.words = overwriteWords s.words t.top (List.replicate count Value.zero) := by
  obtain ⟨words, top, inside⟩ := s
  refine dite_eq_ok_iff.trans ?_
  constructor
  · rintro ⟨room, -, rfl⟩
    exact ⟨Nat.sub_add_cancel room, rfl⟩
  · rintro ⟨rfl, reserved⟩
    refine ⟨Nat.le_add_left .., rfl, ext ?_ (Nat.add_sub_cancel ..)⟩
    rw [reserved]
    exact congrArg (overwriteWords words · _) (Nat.add_sub_cancel ..)

/-- The topmost words are reversed in place if there are so many. The top stays, and the words are
read before the first one is written. -/
theorem reverse_eq_ok_iff :
    reverse count s = .ok a t ↔
      s.top + count ≤ s.words.size ∧ t.top = s.top ∧
        t.words = overwriteWords s.words s.top
          (s.words.extract s.top (s.top + count)).toList.reverse := by
  obtain ⟨words, top, inside⟩ := s
  refine dite_eq_ok_iff.trans ?_
  constructor
  · rintro ⟨present, -, rfl⟩
    have enough : top + count ≤ words.size := by omega
    exact ⟨enough, rfl, rfl⟩
  · rintro ⟨enough, stays, reversed⟩
    exact ⟨Nat.le_sub_of_add_le' enough, rfl, ext reversed.symm stays.symm⟩

/-- The top can be moved down to any index of the area or to its end. Where the new top lies is
known of every stack, so only the way down is a condition. -/
theorem setTop_eq_ok_iff :
    setTop index s = .ok a t ↔ s.top ≤ index ∧ t.top = index ∧ t.words = s.words := by
  obtain ⟨words, top, inside⟩ := s
  refine dite_eq_ok_iff.trans ?_
  constructor
  · rintro ⟨⟨below, _⟩, -, rfl⟩
    exact ⟨below, rfl, rfl⟩
  · rintro ⟨below, rfl, same⟩
    have present : t.top ≤ words.size := by
      have bound := t.top_le
      rwa [same] at bound
    exact ⟨⟨below, present⟩, rfl, ext same.symm rfl⟩

/-- A word can be read at an index exactly if it is live: not above the top, and in the area. Words
above the top are in the area as well, so both conditions are needed. -/
theorem get_eq_ok_iff :
    s.get index = .ok value ↔ s.top ≤ index ∧ s.words[index]? = some value := by
  refine Answer.dite_eq_ok_iff.trans ?_
  constructor
  · rintro ⟨⟨below, present⟩, rfl⟩
    exact ⟨below, Array.getElem?_eq_getElem present⟩
  · rintro ⟨below, found⟩
    obtain ⟨present, word⟩ := Array.getElem?_eq_some_iff.mp found
    exact ⟨⟨below, present⟩, word⟩

/-- What is read at an index depends on the live range and on the word there. So does the fault,
which names the range. -/
theorem get_congr (top : t.top = s.top) (size : t.words.size = s.words.size)
    (word : t.words[index]? = s.words[index]?) : t.get index = s.get index := by
  unfold get bottom
  by_cases live : s.top ≤ index ∧ index < s.words.size
  · have live' : t.top ≤ index ∧ index < t.words.size := by rwa [top, size]
    rw [Array.getElem?_eq_getElem live.2, Array.getElem?_eq_getElem live'.2] at word
    rw [dif_pos live, dif_pos live', Option.some.inj word]
  · have live' : ¬ (t.top ≤ index ∧ index < t.words.size) := by rwa [top, size]
    rw [dif_neg live, dif_neg live', top, size]

/-- A word can be replaced at an index exactly if it can be read there. The top stays, and no word
but this one changes. -/
theorem set_eq_ok_iff :
    set index value s = .ok a t ↔
      (s.top ≤ index ∧ index < s.words.size) ∧ t.top = s.top ∧
        t.words = s.words.setIfInBounds index value := by
  obtain ⟨words, top, inside⟩ := s
  refine dite_eq_ok_iff.trans ?_
  constructor
  · rintro ⟨live, -, rfl⟩
    exact ⟨live, rfl, (setIfInBounds_inside value live.2).symm⟩
  · rintro ⟨live, stays, written⟩
    refine ⟨live, rfl, ext ?_ stays.symm⟩
    rw [written]
    exact (setIfInBounds_inside value live.2).symm

/-- A word that can be read can be replaced. -/
theorem set_of_get {word : Value} (read : s.get index = .ok word) (value : Value) :
    ∃ t, set index value s = .ok () t := by
  obtain ⟨live, found⟩ := get_eq_ok_iff.mp read
  have inside := (Array.getElem?_eq_some_iff.mp found).1
  obtain ⟨words, top, bound⟩ := s
  exact ⟨_, dif_pos ⟨live, inside⟩⟩

/-- Takes `taken` words from the top of `s` and leaves `given` words in their place. -/
structure Trade (taken given : Nat) (s t : Stack) : Prop where
  capacity : t.words.size = s.words.size
  enough : s.top + taken ≤ s.words.size
  top : t.top + given = s.top + taken
  below : ∀ index, s.top + taken ≤ index → t.words[index]? = s.words[index]?

/-- Nothing is traded when nothing happens. -/
theorem Trade.refl (s : Stack) : Trade 0 0 s s := ⟨rfl, s.top_le, rfl, fun _ _ => rfl⟩

/-- One trade after another. Natural subtraction says how much of the first one's words the
second one leaves, and how much more it takes. -/
theorem Trade.trans {taken given taken' given' : Nat} {u : Stack}
    (first : Trade taken given s t) (second : Trade taken' given' t u) :
    Trade (taken + (taken' - given)) (given' + (given - taken')) s u := by
  obtain ⟨capacity, enough, top, below⟩ := first
  obtain ⟨capacity', enough', top', below'⟩ := second
  refine ⟨capacity'.trans capacity, by omega, by omega, ?_⟩
  intro index deep
  rw [below' index (by omega), below index (by omega)]

/-- A word that is taken away and given back in any form may as well be taken. -/
theorem Trade.widen {taken given : Nat} (more : Nat) (trade : Trade taken given s t)
    (enough : s.top + (taken + more) ≤ s.words.size) : Trade (taken + more) (given + more) s t := by
  obtain ⟨capacity, _, top, below⟩ := trade
  exact ⟨capacity, enough, by omega, fun index deep => below index (by omega)⟩

/-- A push writes one word more than it takes. The word it writes lies above the old top, so no
word below has changed. -/
theorem push_trade (pushed : push value s = .ok a t) : Trade 0 1 s t := by
  obtain ⟨top, words⟩ := push_eq_ok_iff.mp pushed
  refine ⟨by rw [words, Array.size_setIfInBounds], s.top_le, by omega, ?_⟩
  intro index deep
  rw [words, Array.getElem?_setIfInBounds_ne (by omega)]

/-- Taking a word moves the top down by one and writes nothing at all. -/
theorem pop_trade (popped : pop s = .ok value t) : Trade 1 0 s t := by
  obtain ⟨present, top, words⟩ := pop_eq_ok_iff.mp popped
  have inside : s.top < s.words.size := (Array.getElem?_eq_some_iff.mp present).1
  exact ⟨by rw [words], inside, by omega, fun _ _ => by rw [words]⟩

/-- Dropping moves the top only. That the words were there follows from the new top, which still
lies inside the array. -/
theorem drop_trade (dropped : drop count s = .ok a t) : Trade count 0 s t := by
  obtain ⟨top, words⟩ := drop_eq_ok_iff.mp dropped
  have inside : s.top + count ≤ s.words.size := by
    rw [← top, ← words]
    exact t.top_le
  exact ⟨by rw [words], inside, by omega, fun _ _ => by rw [words]⟩

/-- A reservation writes zeros above the old top, and what was live stays as it was. -/
theorem reserve_trade (reserved : reserve count s = .ok a t) : Trade 0 count s t := by
  obtain ⟨top, words⟩ := reserve_eq_ok_iff.mp reserved
  refine ⟨by rw [words, size_overwriteWords], s.top_le, by omega, ?_⟩
  intro index deep
  rw [words, getElem?_overwriteWords, if_neg]
  simp only [List.length_replicate]
  omega

/-- Reversing takes the words on top and puts as many back: the written words are those between the
top and the depth reached, and the ones below are read as before. -/
theorem reverse_trade (reversed : reverse count s = .ok a t) : Trade count count s t := by
  obtain ⟨enough, top, words⟩ := reverse_eq_ok_iff.mp reversed
  refine ⟨by rw [words, size_overwriteWords], enough, by omega, ?_⟩
  intro index deep
  rw [words, getElem?_overwriteWords, if_neg]
  simp only [List.length_reverse, Array.length_toList, Array.size_extract]
  omega

/-- The word on top is live, so a word below it is live when the area has it. -/
theorem get_top_of_push (pushed : push value s = .ok a t) : t.get t.top = .ok value := by
  obtain ⟨top, words⟩ := push_eq_ok_iff.mp pushed
  refine get_eq_ok_iff.mpr ⟨Nat.le_refl _, ?_⟩
  have inside := s.top_le
  rw [words, Array.getElem?_setIfInBounds_self_of_lt (by omega)]

/-- What a trade does not take can be read as before. It lies below the words that were taken and
below those that were given, so it is live on both sides. -/
theorem Trade.get {taken given : Nat} (trade : Trade taken given s t)
    (deep : s.top + taken ≤ index) :
    t.get index = .ok value ↔ s.get index = .ok value := by
  have top := trade.top
  rw [get_eq_ok_iff, get_eq_ok_iff, trade.below index deep]
  constructor
  · rintro ⟨_, found⟩
    exact ⟨by omega, found⟩
  · rintro ⟨_, found⟩
    exact ⟨by omega, found⟩

section Refusal

/-! A request that is refused leaves the whole stack as it was, the words above the top too. -/

open BytecodeMachine.Action

/-- A full stack refuses before anything is written, so a push that faults leaves the stack alone.
The same shape, a guard in front of the only write, makes the next six lemmas hold. -/
theorem push_spares (value : Value) : Spares id (push value) := by
  rintro ⟨words, top, inside⟩
  exact .of_dite rfl (fun _ => trivial) fun _ => rfl

/-- Taking a word off an empty stack leaves it empty. -/
theorem pop_spares : Spares id pop := by
  rintro ⟨words, top, inside⟩
  exact .of_dite rfl (fun _ => trivial) fun _ => rfl

/-- Dropping more words than there are drops none of them. -/
theorem drop_spares (count : Nat) : Spares id (drop count) := by
  rintro ⟨words, top, inside⟩
  exact .of_dite rfl (fun _ => trivial) fun _ => rfl

/-- A reservation without room for all its words makes none of them. -/
theorem reserve_spares (count : Nat) : Spares id (reserve count) := by
  rintro ⟨words, top, inside⟩
  exact .of_dite rfl (fun _ => trivial) fun _ => rfl

/-- Reversing more words than there are moves none of them. -/
theorem reverse_spares (count : Nat) : Spares id (reverse count) := by
  rintro ⟨words, top, inside⟩
  exact .of_dite rfl (fun _ => trivial) fun _ => rfl

/-- A position that is not one of the live part is refused before the top is moved. -/
theorem setTop_spares (index : Nat) : Spares id (setTop index) := by
  rintro ⟨words, top, inside⟩
  exact .of_dite rfl (fun _ => trivial) fun _ => rfl

/-- A position that is not live is refused before anything is written to it. -/
theorem set_spares (index : Nat) (value : Value) : Spares id (set index value) := by
  rintro ⟨words, top, inside⟩
  exact .of_dite rfl (fun _ => trivial) fun _ => rfl

end Refusal

end Stack

end BytecodeMachine
