import BytecodeMachine.Proofs.Stack
/-!
# Live words as a list

What a program sees of a stack are its live words, the top first. On them the operations are
those on lists: pushing is consing, and words are reversed, looked at and dropped from the
front. A request that is refused leaves the whole stack as it was, and a push is refused only
where there is no room.
-/
namespace BytecodeMachine.Stack

variable {s t : Stack} {value : Value} {count depth : Nat} {a : Unit} {words : List Value}

/-- The live words are the array from the top on. -/
theorem live_toList (s : Stack) : s.live.toList = s.words.toList.drop s.top := by
  have whole : s.words.toList.length - s.top = (s.words.toList.drop s.top).length := by
    rw [List.length_drop]
  rw [live, Array.toList_extract, List.extract_eq_take_drop, ← Array.length_toList, whole,
    List.take_length]

/-- Every word of the array is either live or free, and the top counts the free ones. -/
theorem length_live (s : Stack) : s.live.toList.length + s.top = s.capacity := by
  have inside := s.top_le
  rw [live_toList, List.length_drop, Array.length_toList, capacity]
  omega

/-- A live word is found by its depth. -/
theorem getElem?_live (s : Stack) (depth : Nat) :
    s.live.toList[depth]? = s.words[s.top + depth]? := by
  rw [live_toList, List.getElem?_drop, Array.getElem?_toList]

/-- The value pushed is the new first word, and the others follow it as before. The new top is
where the value was written, and behind it the array is as it was. -/
theorem push_live (pushed : push value s = .ok a t) :
    t.live.toList = value :: s.live.toList := by
  obtain ⟨top, words⟩ := push_eq_ok_iff.mp pushed
  have inside : t.top < s.words.toList.length := by
    have inside := s.top_le
    rw [Array.length_toList]
    omega
  rw [live_toList, live_toList, words, ← top, Array.toList_setIfInBounds,
    List.drop_eq_getElem_cons (by rwa [List.length_set]), List.getElem_set_self,
    List.drop_set_of_lt (Nat.lt_succ_self _)]

/-- The word that is taken was the first live one, and the rest of the live words is what is
left. -/
theorem pop_live (popped : pop s = .ok value t) : s.live.toList = value :: t.live.toList := by
  obtain ⟨present, top, words⟩ := pop_eq_ok_iff.mp popped
  rw [← Array.getElem?_toList, List.getElem?_eq_some_iff] at present
  obtain ⟨inside, rfl⟩ := present
  rw [live_toList, live_toList, words, top, ← List.drop_eq_getElem_cons inside]

/-- A top moved down by a count shows the live words without their first ones, as two drops in a
row are one. -/
theorem drop_live (dropped : drop count s = .ok a t) :
    t.live.toList = s.live.toList.drop count := by
  obtain ⟨top, words⟩ := drop_eq_ok_iff.mp dropped
  rw [live_toList, live_toList, words, top, List.drop_drop]

/-- A look at a depth reads the live words from the first one on. -/
theorem peek_eq_ok_iff_live : s.peek depth = .ok value ↔ s.live.toList[depth]? = some value := by
  rw [peek_eq_ok_iff, getElem?_live]

/-- A word that is looked at lies between the words above it and those below it. -/
theorem exists_live_of_peek (peeked : s.peek depth = .ok value) :
    ∃ above below : List Value, above.length = depth ∧
      s.live.toList = above.reverse ++ value :: below := by
  rw [peek_eq_ok_iff_live, List.getElem?_eq_some_iff] at peeked
  obtain ⟨inside, rfl⟩ := peeked
  refine ⟨(s.live.toList.take depth).reverse, s.live.toList.drop (depth + 1), ?_, ?_⟩
  · rw [List.length_reverse, List.length_take, Nat.min_eq_left (Nat.le_of_lt inside)]
  · rw [List.reverse_reverse, ← List.drop_eq_getElem_cons inside, List.take_append_drop]

/-- A live word is read by its distance from the top. -/
theorem get_eq_ok_iff_live :
    s.get (s.top + depth) = .ok value ↔ s.live.toList[depth]? = some value := by
  rw [get_eq_ok_iff, getElem?_live]
  exact and_iff_right (Nat.le_add_right _ _)

/-- Of the live words the one at the index is replaced. -/
theorem set_live {index : Nat} (written : set index value s = .ok a t) :
    t.live.toList = s.live.toList.set (index - s.top) value := by
  obtain ⟨live, top, words⟩ := set_eq_ok_iff.mp written
  rw [live_toList, live_toList, words, top, Array.toList_setIfInBounds, List.drop_set,
    if_neg (Nat.not_lt.mpr live.1)]

/-- Zeros are put in front of the live words. The two lists are compared entry by entry, below the
count and from the count on. -/
theorem reserve_live (reserved : reserve count s = .ok a t) :
    t.live.toList = List.replicate count Value.zero ++ s.live.toList := by
  obtain ⟨top, words⟩ := reserve_eq_ok_iff.mp reserved
  have inside := s.top_le
  apply List.ext_getElem?
  intro depth
  rw [getElem?_live, words, getElem?_overwriteWords, List.getElem?_append, List.length_replicate]
  by_cases front : depth < count
  · rw [if_pos (by omega), if_pos front, Nat.add_sub_cancel_left]
  · rw [if_neg (by omega), if_neg front, getElem?_live]
    congr 1
    omega

/-- The topmost words, as they lie in the area. -/
theorem extract_live (s : Stack) (count : Nat) :
    (s.words.extract s.top (s.top + count)).toList = s.live.toList.take count := by
  rw [live_toList, Array.toList_extract, List.extract_eq_take_drop, Nat.add_sub_cancel_left]

/-- The words shown are the first live ones, in their order. -/
theorem window_live {found : Array Value} (looked : s.window count = .ok found) :
    found.toList = s.live.toList.take count := by
  unfold window at looked
  split at looked
  · cases looked
    exact extract_live s count
  · cases looked

/-- Reversing turns the topmost words round and leaves the others. Proof: the two lists are
compared entry by entry. Below the count an entry was overwritten with the words in reverse, and
from there on it is what it was. -/
theorem reverse_live (reversed : reverse count s = .ok a t) :
    t.live.toList = (s.live.toList.take count).reverse ++ s.live.toList.drop count := by
  obtain ⟨enough, top, words⟩ := reverse_eq_ok_iff.mp reversed
  have extracted := extract_live s count
  have length := length_live s
  have taken : (s.live.toList.take count).reverse.length = count := by
    rw [List.length_reverse, List.length_take]
    simp only [capacity] at length
    omega
  apply List.ext_getElem?
  intro depth
  rw [getElem?_live, words, getElem?_overwriteWords, top, extracted, taken,
    List.getElem?_append, taken]
  by_cases front : depth < count
  · have range : s.top ≤ s.top + depth ∧ s.top + depth < s.top + count ∧
        s.top + depth < s.words.size := by omega
    rw [if_pos range, if_pos front, Nat.add_sub_cancel_left]
  · have range : ¬ (s.top ≤ s.top + depth ∧ s.top + depth < s.top + count ∧
        s.top + depth < s.words.size) := by omega
    rw [if_neg range, if_neg front, List.getElem?_drop, Nat.add_sub_cancel' (by omega),
      getElem?_live]

/-- A push that is refused finds no room: the top is at the beginning of the area already. Nothing
has been written then. -/
theorem push_eq_error {cause : Fault} (refused : push value s = .error cause t) :
    s.top = 0 ∧ t = s := by
  obtain ⟨words, top, inside⟩ := s
  simp only [push] at refused
  split at refused
  · cases refused
  · next full =>
    cases refused
    exact ⟨Nat.eq_zero_of_not_pos full, rfl⟩

/-- With a word of room a push succeeds: its guard asks no more than that. -/
theorem push_room (value : Value) (room : s.live.toList.length < s.capacity) :
    ∃ t, push value s = .ok () t := by
  have length := length_live s
  cases pushed : push value s with
  | ok a t => exact ⟨t, rfl⟩
  | error cause t =>
    have full := (push_eq_error pushed).1
    omega

/-- If there is a first live word it can be taken, and what follows it is left. A refusal would
mean that the top is at the end, and then no word would be live. -/
theorem pop_present (present : s.live.toList = value :: words) :
    ∃ t, pop s = .ok value t ∧ t.live.toList = words := by
  cases popped : pop s with
  | ok found t =>
    have split := pop_live popped
    rw [present, List.cons.injEq] at split
    obtain ⟨rfl, rfl⟩ := split
    exact ⟨t, rfl, rfl⟩
  | error cause t =>
    have length := length_live s
    rw [present, List.length_cons] at length
    have inside : s.top < s.words.size := by
      simp only [capacity] at length
      omega
    obtain ⟨array, top, bound⟩ := s
    simp [pop, inside] at popped

/-- As many live words as are to be reversed are all that reversing asks for. -/
theorem reverse_enough (enough : count ≤ s.live.toList.length) :
    ∃ t, reverse count s = .ok () t := by
  have length := length_live s
  simp only [capacity] at length
  have present : count ≤ s.words.size - s.top := by omega
  obtain ⟨array, top, inside⟩ := s
  exact ⟨_, dif_pos present⟩

/-- As many live words as are to be dropped are all that dropping asks for. -/
theorem drop_enough (enough : count ≤ s.live.toList.length) : ∃ t, drop count s = .ok () t := by
  have length := length_live s
  simp only [capacity] at length
  have present : count ≤ s.words.size - s.top := by omega
  obtain ⟨array, top, inside⟩ := s
  exact ⟨_, dif_pos present⟩

/-- As many live words as are asked for can be shown. -/
theorem window_enough (enough : count ≤ s.live.toList.length) :
    ∃ found, s.window count = .ok found := by
  have length := length_live s
  simp only [capacity] at length
  have present : count ≤ s.size := by
    simp only [size, bottom]
    omega
  exact ⟨_, if_pos present⟩

end BytecodeMachine.Stack
