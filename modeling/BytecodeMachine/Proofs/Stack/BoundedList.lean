import BytecodeMachine.Proofs.Action.Series
import BytecodeMachine.Proofs.Stack.Live
import BytecodeMachine.Proofs.Stack.Request
/-!
# A stack is a bounded list

The requests to a stack once more, on a plain list of at most so many words whose first one is
the top. A word of the list has an index as well: the list ends at the bottom of the storage,
so its first word is as far from the start as words can still be pushed.

A stack and the list of its live words do the same, request by request: they answer alike, are
refused alike for the same reason, and the live words are the list afterwards. What lies above
the top has no part in this, so words that have been discarded are never seen again.
-/
namespace BytecodeMachine

/-- At most `capacity` words, the first one on top. -/
structure BoundedList (capacity : Nat) where
  words : List Value
  length_le : words.length ≤ capacity

namespace BoundedList

variable {capacity : Nat}

def empty (capacity : Nat) : BoundedList capacity := ⟨[], Nat.zero_le _⟩

/-- The index of the first word, or the capacity if there is none. -/
def top (list : BoundedList capacity) : Nat := capacity - list.words.length

/-- Behind the first index and before the end there are words. -/
theorem sub_top_lt (list : BoundedList capacity) {index : Nat}
    (live : list.top ≤ index ∧ index < capacity) : index - list.top < list.words.length := by
  have fits := list.length_le
  unfold top at live ⊢
  omega

section Fits

variable (list : BoundedList capacity)

/-- A shorter list still fits. -/
theorem drop_fits (count : Nat) : (list.words.drop count).length ≤ capacity := by
  have fits := list.length_le
  rw [List.length_drop]
  omega

/-- Zeros may be put in front as long as there is room for them: the guard of the request is the
bound of the new list. -/
theorem reserve_fits {count : Nat} (room : count + list.words.length ≤ capacity) :
    (List.replicate count Value.zero ++ list.words).length ≤ capacity := by
  rwa [List.length_append, List.length_replicate]

/-- The words are moved about and none is added. -/
theorem reverse_fits (count : Nat) :
    ((list.words.take count).reverse ++ list.words.drop count).length ≤ capacity := by
  have fits := list.length_le
  rw [List.length_append, List.length_reverse, List.length_take, List.length_drop]
  omega

/-- Writing to an entry does not change how many there are. -/
theorem set_fits (index : Nat) (value : Value) :
    (list.words.set index value).length ≤ capacity := by
  rw [List.length_set]
  exact list.length_le

end Fits

/-- What each request does to a list. -/
def perform : Stack.Request → Action (BoundedList capacity) (Array Value)
  | .push value => fun list =>
    if room : list.words.length < capacity then .ok #[] ⟨value :: list.words, room⟩
    else .error (.stack .pushOnFull) list
  | .pop => fun list =>
    match list with
    | ⟨word :: rest, fits⟩ => .ok #[word] ⟨rest, Nat.le_of_succ_le fits⟩
    | ⟨[], fits⟩ => .error (.stack .popOnEmpty) ⟨[], fits⟩
  | .peek depth => fun list =>
    if present : depth < list.words.length then .ok #[list.words[depth]] list
    else .error (.stack (.peekBeyond depth list.words.length)) list
  | .drop count => fun list =>
    if count ≤ list.words.length then .ok #[] ⟨list.words.drop count, list.drop_fits count⟩
    else .error (.stack (.dropBeyond count list.words.length)) list
  | .reserve count => fun list =>
    if room : count + list.words.length ≤ capacity then
      .ok #[] ⟨List.replicate count Value.zero ++ list.words, list.reserve_fits room⟩
    else .error (.stack (.reserveBeyond count)) list
  | .reverse count => fun list =>
    if count ≤ list.words.length then
      .ok #[] ⟨(list.words.take count).reverse ++ list.words.drop count, list.reverse_fits count⟩
    else .error (.stack (.reverseBeyond count list.words.length)) list
  | .window count => fun list =>
    if count ≤ list.words.length then .ok (list.words.take count).toArray list
    else .error (.stack (.windowBeyond count list.words.length)) list
  | .setTop index => fun list =>
    if list.top ≤ index ∧ index ≤ capacity then
      -- the last words stay, as many as there are indices from the new top on
      .ok #[] ⟨list.words.drop (list.words.length - (capacity - index)), list.drop_fits _⟩
    else .error (.stack (.topOutside index list.top capacity)) list
  | .get index => fun list =>
    if live : list.top ≤ index ∧ index < capacity then
      .ok #[list.words.get ⟨index - list.top, list.sub_top_lt live⟩] list
    else .error (.stack (.readOutside index list.top capacity)) list
  | .set index value => fun list =>
    if list.top ≤ index ∧ index < capacity then
      .ok #[] ⟨list.words.set (index - list.top) value, list.set_fits _ value⟩
    else .error (.stack (.writeOutside index list.top capacity)) list

/-- What a list answers to requests one after another, and what it is afterwards. -/
def serve (requests : List Stack.Request) (list : BoundedList capacity) :
    List (Answer (Array Value)) × BoundedList capacity :=
  Action.series (requests.map perform) list

end BoundedList

namespace Stack

open BytecodeMachine.Action BoundedList

variable {capacity : Nat} {s t : Stack} {list : BoundedList capacity}

/-- The live words are those of the list, and there is room for as many. -/
structure Represents (s : Stack) (list : BoundedList capacity) : Prop where
  capacity : s.words.size = capacity
  words : s.live.toList = list.words

namespace Represents

/-- A stack shows as many words as lie between its top and its end. -/
theorem length (same : Represents s list) : list.words.length = s.words.size - s.top := by
  have whole := length_live s
  rw [← same.words]
  simp only [Stack.capacity] at whole
  omega

/-- The position of the top is counted from the far end, as the capacity less the words there are.
It is the index that the stack holds. -/
theorem top (same : Represents s list) : list.top = s.top := by
  have inside := s.top_le
  rw [BoundedList.top, same.length, same.capacity]
  rw [same.capacity] at inside
  omega

end Represents

/-- A list at its bound stands for a stack whose top is zero, and there both refuse. Otherwise both
get the value in front. -/
theorem simulates_push (value : Value) :
    Simulates True Represents (Request.run (.push value))
      (perform (.push value) : Action (BoundedList capacity) (Array Value)) := by
  intro s list same
  have length := same.length
  have fits := same.capacity
  have inside := s.top_le
  by_cases room : list.words.length < capacity
  · obtain ⟨t, pushed⟩ := push_room value (by rw [same.words, Stack.capacity, fits]; exact room)
    refine tracks_of_ok (bind_eq_ok_iff.mpr ⟨_, _, pushed, rfl⟩) (dif_pos room) ⟨?_, ?_⟩
    · rw [(push_trade pushed).capacity, fits]
    · rw [push_live pushed, same.words]
  · have refused : push value s = .error (.stack .pushOnFull) s := dif_neg (by omega)
    exact tracks_of_error (bind_eq_error_iff.mpr (.inl refused)) (dif_neg room) same

/-- The cases are those of the list. An empty one stands for a stack without live words, and both
underflow; otherwise both answer the head, and the tail stands for the stack below it. -/
theorem simulates_pop :
    Simulates True Represents (Request.run .pop)
      (perform .pop : Action (BoundedList capacity) (Array Value)) := by
  rintro s ⟨live, fits⟩ same
  have length := same.length
  cases live with
  | nil =>
    rw [List.length_nil] at length
    have refused : pop s = .error (.stack .popOnEmpty) s := dif_neg (by omega)
    exact tracks_of_error (bind_eq_error_iff.mpr (.inl refused)) rfl same
  | cons word rest =>
    obtain ⟨t, popped, left⟩ := pop_present same.words
    refine tracks_of_ok (bind_eq_ok_iff.mpr ⟨_, _, popped, rfl⟩) rfl ⟨?_, left⟩
    rw [(pop_trade popped).capacity, same.capacity]

/-- A depth is looked up on both sides at the same entry, and is refused on both if it is not less
than the number of words. -/
theorem simulates_peek (depth : Nat) :
    Simulates True Represents (Request.run (.peek depth))
      (perform (.peek depth) : Action (BoundedList capacity) (Array Value)) := by
  intro s list same
  have length := same.length
  by_cases present : depth < list.words.length
  · have found : s.peek depth = .ok list.words[depth] := by
      rw [peek_eq_ok_iff_live, same.words, List.getElem?_eq_getElem present]
    exact tracks_of_ok (bind_eq_ok_iff.mpr ⟨_, _, observe_eq_ok_iff.mpr ⟨found, rfl⟩, rfl⟩)
      (dif_pos present) same
  · have refused : s.peek depth = .error (.stack (.peekBeyond depth list.words.length)) := by
      rw [peek, dif_neg (by omega), size, bottom, length]
    exact tracks_of_error (bind_eq_error_iff.mpr (.inl (observe_of_error refused)))
      (dif_neg present) same

/-- Both compare the count with the words there are, and if these are enough the shorter list
stands for the stack with the lower top. -/
theorem simulates_drop (count : Nat) :
    Simulates True Represents (Request.run (.drop count))
      (perform (.drop count) : Action (BoundedList capacity) (Array Value)) := by
  intro s list same
  have length := same.length
  by_cases present : count ≤ list.words.length
  · have enough : count ≤ s.live.toList.length := by rwa [same.words]
    obtain ⟨t, dropped⟩ := drop_enough enough
    refine tracks_of_ok (bind_eq_ok_iff.mpr ⟨_, _, dropped, rfl⟩) (if_pos present) ⟨?_, ?_⟩
    · rw [(drop_trade dropped).capacity, same.capacity]
    · rw [drop_live dropped, same.words]
  · have refused : drop count s = .error (.stack (.dropBeyond count list.words.length)) s := by
      rw [length]
      exact dif_neg (by omega)
    exact tracks_of_error (bind_eq_error_iff.mpr (.inl refused)) (if_neg present) same

/-- Both compare the count with the room left, and if it suffices both get that many zeros in
front. -/
theorem simulates_reserve (count : Nat) :
    Simulates True Represents (Request.run (.reserve count))
      (perform (.reserve count) : Action (BoundedList capacity) (Array Value)) := by
  intro s list same
  have length := same.length
  have fits := same.capacity
  have inside := s.top_le
  by_cases room : count + list.words.length ≤ capacity
  · obtain ⟨t, reserved⟩ : ∃ t, reserve count s = .ok () t := ⟨_, dif_pos (by omega)⟩
    refine tracks_of_ok (bind_eq_ok_iff.mpr ⟨_, _, reserved, rfl⟩) (dif_pos room) ⟨?_, ?_⟩
    · rw [(reserve_trade reserved).capacity, fits]
    · rw [reserve_live reserved, same.words]
  · have refused : reserve count s = .error (.stack (.reserveBeyond count)) s :=
      dif_neg (by omega)
    exact tracks_of_error (bind_eq_error_iff.mpr (.inl refused)) (dif_neg room) same

/-- Both compare the count with the words there are. The words between the top and that depth,
overwritten in reverse, are the reversed front of the list. -/
theorem simulates_reverse (count : Nat) :
    Simulates True Represents (Request.run (.reverse count))
      (perform (.reverse count) : Action (BoundedList capacity) (Array Value)) := by
  intro s list same
  have length := same.length
  by_cases present : count ≤ list.words.length
  · have enough : count ≤ s.live.toList.length := by rwa [same.words]
    obtain ⟨t, reversed⟩ := reverse_enough enough
    refine tracks_of_ok (bind_eq_ok_iff.mpr ⟨_, _, reversed, rfl⟩) (if_pos present) ⟨?_, ?_⟩
    · rw [(reverse_trade reversed).capacity, same.capacity]
    · rw [reverse_live reversed, same.words]
  · have refused : reverse count s =
        .error (.stack (.reverseBeyond count list.words.length)) s := by
      rw [length]
      exact dif_neg (by omega)
    exact tracks_of_error (bind_eq_error_iff.mpr (.inl refused)) (if_neg present) same

/-- A look at the words on top is a look at the front of the list, and neither side changes. The
list is as long as there are live words, so both sides refuse the same counts. -/
theorem simulates_window (count : Nat) :
    Simulates True Represents (Request.run (.window count))
      (perform (.window count) : Action (BoundedList capacity) (Array Value)) := by
  intro s list same
  have length := same.length
  by_cases present : count ≤ list.words.length
  · have enough : count ≤ s.live.toList.length := by rwa [same.words]
    obtain ⟨found, looked⟩ := window_enough enough
    have words : (list.words.take count).toArray = found := by
      rw [← same.words, ← window_live looked]
    refine tracks_of_ok (observe_eq_ok_iff.mpr ⟨looked, rfl⟩) ?_ same
    rw [← words]
    exact if_pos present
  · have refused : s.window count = .error (.stack (.windowBeyond count list.words.length)) := by
      rw [window, size, bottom, ← length, if_neg present]
    exact tracks_of_error (observe_of_error refused) (if_neg present) same

/-- A position counted from the far end names the same depth on both sides, so moving the top there
drops the same words. -/
theorem simulates_setTop (index : Nat) :
    Simulates True Represents (Request.run (.setTop index))
      (perform (.setTop index) : Action (BoundedList capacity) (Array Value)) := by
  intro s list same
  have top := same.top
  have length := same.length
  have fits := same.capacity
  by_cases live : list.top ≤ index ∧ index ≤ capacity
  · obtain ⟨t, moved⟩ : ∃ t, setTop index s = .ok () t := ⟨_, dif_pos (by omega)⟩
    obtain ⟨_, now, words⟩ := setTop_eq_ok_iff.mp moved
    refine tracks_of_ok (bind_eq_ok_iff.mpr ⟨_, _, moved, rfl⟩) (if_pos live) ⟨?_, ?_⟩
    · rw [words, fits]
    · have above : list.words.length - (capacity - index) = index - s.top := by omega
      simp only [above]
      rw [live_toList, now, words, ← same.words, live_toList, List.drop_drop,
        Nat.add_sub_cancel' (by omega)]
  · have refused : setTop index s = .error (.stack (.topOutside index list.top capacity)) s := by
      rw [top, ← fits]
      exact dif_neg (by omega)
    exact tracks_of_error (bind_eq_error_iff.mpr (.inl refused)) (if_neg live) same

/-- A live position names one entry of the list, which is the word the stack holds there; other
positions are refused on both sides. -/
theorem simulates_get (index : Nat) :
    Simulates True Represents (Request.run (.get index))
      (perform (.get index) : Action (BoundedList capacity) (Array Value)) := by
  intro s list same
  have top := same.top
  have fits := same.capacity
  by_cases live : list.top ≤ index ∧ index < capacity
  · have found : s.get index = .ok (list.words.get ⟨index - list.top, list.sub_top_lt live⟩) := by
      have there : s.live.toList[index - s.top]? = s.words[index]? := by
        rw [getElem?_live, Nat.add_sub_cancel' (by omega)]
      rw [get_eq_ok_iff, ← there, same.words, ← top]
      exact ⟨by omega, List.getElem?_eq_getElem _⟩
    exact tracks_of_ok (bind_eq_ok_iff.mpr ⟨_, _, observe_eq_ok_iff.mpr ⟨found, rfl⟩, rfl⟩)
      (dif_pos live) same
  · have refused : s.get index = .error (.stack (.readOutside index list.top capacity)) := by
      rw [get, dif_neg (by omega), top, bottom, fits]
    exact tracks_of_error (bind_eq_error_iff.mpr (.inl (observe_of_error refused)))
      (dif_neg live) same

/-- As for reading, with the entry overwritten on both sides. The words above and below it are not
touched by either. -/
theorem simulates_set (index : Nat) (value : Value) :
    Simulates True Represents (Request.run (.set index value))
      (perform (.set index value) : Action (BoundedList capacity) (Array Value)) := by
  intro s list same
  have top := same.top
  have fits := same.capacity
  by_cases live : list.top ≤ index ∧ index < capacity
  · obtain ⟨t, written⟩ : ∃ t, set index value s = .ok () t := ⟨_, dif_pos (by omega)⟩
    obtain ⟨_, _, words⟩ := set_eq_ok_iff.mp written
    refine tracks_of_ok (bind_eq_ok_iff.mpr ⟨_, _, written, rfl⟩) (if_pos live) ⟨?_, ?_⟩
    · rw [words, Array.size_setIfInBounds, fits]
    · rw [set_live written, same.words, ← top]
  · have refused : set index value s =
        .error (.stack (.writeOutside index list.top capacity)) s := by
      rw [top, ← fits]
      exact dif_neg (by omega)
    exact tracks_of_error (bind_eq_error_iff.mpr (.inl refused)) (if_neg live) same

/-- One lemma for each request, put together: whatever is asked, the list answers as the stack does
and goes on standing for it. -/
theorem simulates_perform (request : Request) :
    Simulates True Represents request.run
      (perform request : Action (BoundedList capacity) (Array Value)) := by
  cases request with
  | push value => exact simulates_push value
  | pop => exact simulates_pop
  | peek depth => exact simulates_peek depth
  | drop count => exact simulates_drop count
  | reserve count => exact simulates_reserve count
  | reverse count => exact simulates_reverse count
  | window count => exact simulates_window count
  | setTop index => exact simulates_setTop index
  | get index => exact simulates_get index
  | set index value => exact simulates_set index value

/-- What a stack answers to requests one after another, and what it is afterwards. -/
def serve (requests : List Request) (s : Stack) : List (Answer (Array Value)) × Stack :=
  series (requests.map Request.run) s

/-- By induction on the requests, which is done once for all simulations, a whole series is
answered alike, and the list at the end stands for the stack at the end. -/
theorem serve_represented (same : Represents s list) (requests : List Request) :
    (list.serve requests).1 = (s.serve requests).1 ∧
      Represents (s.serve requests).2 (list.serve requests).2 :=
  series_of_simulates simulates_perform requests same

/-- Requests that look change nothing whether they are refused or not. Those that write are refused
before they write. -/
theorem Request.run_spares (request : Request) : Spares id request.run := by
  have looks (look : Stack → Answer Value) : Spares id (do return #[← observe look]) :=
    (keeps_observe look).spares.before fun _ => unfailing_pure _
  cases request with
  | push value => exact (push_spares value).before fun _ => unfailing_pure _
  | pop => exact pop_spares.before fun _ => unfailing_pure _
  | peek depth => exact looks _
  | drop count => exact (drop_spares count).before fun _ => unfailing_pure _
  | reserve count => exact (reserve_spares count).before fun _ => unfailing_pure _
  | reverse count => exact (reverse_spares count).before fun _ => unfailing_pure _
  | window count => exact (keeps_observe _).spares
  | setTop index => exact (setTop_spares index).before fun _ => unfailing_pure _
  | get index => exact looks _
  | set index value => exact (set_spares index value).before fun _ => unfailing_pure _

/-- A stack is made exactly if there is room for its words: nothing else can be refused. -/
theorem exists_ofCapacity_iff {allocator : Allocator} :
    (∃ s, ofCapacity capacity allocator = .ok s) ↔ allocator.HasRoom capacity .stack := by
  simp only [ofCapacity_eq_ok_iff, exists_and_left, exists_eq', and_true]

/-- A new stack is the empty list, whoever has allocated it: its top is behind its last word. -/
theorem ofCapacity_represents {allocator : Allocator}
    (made : ofCapacity capacity allocator = .ok s) :
    Represents s (BoundedList.empty capacity) := by
  obtain ⟨_, rfl⟩ := ofCapacity_eq_ok_iff.mp made
  refine ⟨Array.size_replicate, ?_⟩
  rw [live_toList]
  exact List.drop_eq_nil_of_le (Nat.le_of_eq List.length_replicate)

/-- Stacks of one capacity with the same live words are the same to those who use them. Both
represent the same list, and what is answered is what the list answers. -/
theorem serve_eq_of_live (size : s.words.size = t.words.size) (live : s.live = t.live)
    (requests : List Request) :
    (s.serve requests).1 = (t.serve requests).1 ∧
      (s.serve requests).2.live = (t.serve requests).2.live := by
  have fits : t.live.toList.length ≤ t.words.size := by
    have := length_live t
    simp only [Stack.capacity] at this
    omega
  have left : Represents s (⟨t.live.toList, fits⟩ : BoundedList t.words.size) :=
    ⟨size, by rw [live]⟩
  have right : Represents t (⟨t.live.toList, fits⟩ : BoundedList t.words.size) := ⟨rfl, rfl⟩
  obtain ⟨answers, after⟩ := serve_represented left requests
  obtain ⟨answers', after'⟩ := serve_represented right requests
  exact ⟨answers.symm.trans answers', Array.toList_inj.mp (after.words.trans after'.words.symm)⟩

/-- A stack is a list of at most so many words. It is made exactly if there is room for its words,
which is for the allocator to say. Whatever is asked of it then, one request after another, it
answers or refuses as the list does, its live words are the list, and its top is the index of the
first one. A request that is refused leaves it as it was. Stacks whose live words are the same
answer alike from there on, whatever words they have discarded. -/
theorem behaves_as_bounded_list (capacity : Nat) (allocator : Allocator) :
    ((∃ s, ofCapacity capacity allocator = .ok s) ↔ allocator.HasRoom capacity .stack) ∧
    ∀ s, ofCapacity capacity allocator = .ok s → ∀ requests,
      (s.serve requests).1 = ((BoundedList.empty capacity).serve requests).1 ∧
      (s.serve requests).2.live.toList = ((BoundedList.empty capacity).serve requests).2.words ∧
      (s.serve requests).2.top = ((BoundedList.empty capacity).serve requests).2.top ∧
      (∀ (request : Request) cause t, request.run (s.serve requests).2 = .error cause t →
        t = (s.serve requests).2) ∧
      ∀ others, (s.serve others).2.live = (s.serve requests).2.live → ∀ later,
        ((s.serve others).2.serve later).1 = ((s.serve requests).2.serve later).1 := by
  refine ⟨exists_ofCapacity_iff, fun s made requests => ?_⟩
  have new := ofCapacity_represents made
  obtain ⟨answers, after⟩ := serve_represented new requests
  refine ⟨answers.symm, after.words, after.top.symm, ?_, ?_⟩
  · intro request cause t refused
    exact request.run_spares.of_error refused
  · intro others live later
    have size := (serve_represented new others).2.capacity.trans after.capacity.symm
    exact (serve_eq_of_live size live later).1

/-- A word that has been taken off is not seen by those who reserve its place, and a push that is
refused leaves no trace. -/
theorem behaves_as_bounded_list_reservedWords :
    ∃ s, ofCapacity 2 .boundless = .ok s ∧
      (s.serve [.push (.scalar 9), .pop, .reserve 2, .push (.scalar 7), .get 0, .window 2]).1 =
        [.ok #[], .ok #[.scalar 9], .ok #[], .error (.stack .pushOnFull), .ok #[.scalar 0],
          .ok #[.scalar 0, .scalar 0]] ∧
      (∃ cause, (Request.push (.scalar 7)).run (s.serve [.reserve 2]).2 =
        .error cause (s.serve [.reserve 2]).2) ∧
      ((s.serve [.push (.scalar 9), .pop]).2.serve [.reserve 1, .peek 0]).1 =
        ((s.serve []).2.serve [.reserve 1, .peek 0]).1 := by
  obtain ⟨s, made, ⟨cause, t, refused⟩, nothing⟩ :
      ∃ s, ofCapacity 2 .boundless = .ok s ∧
        (∃ cause t, (Request.push (.scalar 7)).run (s.serve [.reserve 2]).2 = .error cause t) ∧
        (s.serve [.push (.scalar 9), .pop]).2.live = (s.serve []).2.live :=
    ⟨_, rfl, ⟨_, _, rfl⟩, rfl⟩
  have behaves := (behaves_as_bounded_list 2 .boundless).2 s made
  obtain ⟨answers, _⟩ := behaves
    [.push (.scalar 9), .pop, .reserve 2, .push (.scalar 7), .get 0, .window 2]
  obtain ⟨_, _, _, unchanged, _⟩ := behaves [.reserve 2]
  obtain ⟨_, _, _, _, alike⟩ := behaves []
  have same := unchanged _ cause t refused
  rw [same] at refused
  exact ⟨s, made, answers.trans rfl, ⟨cause, refused⟩, alike _ nothing _⟩

end Stack

end BytecodeMachine
