import BytecodeMachine.Heap.Print
import BytecodeMachine.Proofs.Heap
/-!
# Printing without references that lead nowhere

Printing goes from the words of an object to what they lead to, and reads nothing else of the
heap. So an object is printed alike in two heaps in which the words that are met lead to the same
objects and are printed alike.

Printing shows a reference that leads nowhere by a text of its own. To say that this text
never comes up, it is made a parameter here: what is printed does not depend on it as long
as the references in the heap and in the word that is printed lead to objects.
-/
namespace BytecodeMachine.Print

/-- The printed form of a word, with a mark for references that lead nowhere. -/
def valueMarking (mark : Ref → String) (heap : Heap) (depth : Nat) (word : Value) : String :=
  match word with
  | .ref reference =>
    match heap.objects[reference.index]? with
    | none => mark reference
    | some found =>
      match depth with
      | 0 => "..."
      | depth + 1 => object heap (valueMarking mark heap depth) found
  | word => word.text

/-- The mark that is printed. -/
def dangling (reference : Ref) : String := "<dangling @" ++ Decimal.text reference.index ++ ">"

/-- The printer is the marking printer at its own mark. The two follow one recursion, so their
texts agree depth by depth. -/
theorem value_eq_valueMarking (heap : Heap) (depth : Nat) :
    value heap depth = valueMarking dangling heap depth := by
  induction depth with
  | zero =>
    funext word
    cases word with
    | ref reference =>
      unfold value valueMarking
      cases heap.objects[reference.index]? <;> rfl
    | scalar number => rfl
    | slot place => rfl
  | succ depth same =>
    funext word
    cases word with
    | ref reference =>
      unfold value valueMarking
      cases heap.objects[reference.index]? with
      | none => rfl
      | some found =>
        dsimp only
        rw [same]
    | scalar number => rfl
    | slot place => rfl

variable {heap heap' : Heap} {holds : Value → Prop} {item item' : Value → String} {word : Value}

/-- A word that leads to an object is printed as that object, with the words inside at one level
less. -/
theorem value_of_lookup? {found : Object} (leads : heap.lookup? word = some found) (depth : Nat) :
    value heap (depth + 1) word = object heap (value heap depth) found := by
  obtain ⟨reference, rfl, there⟩ := Heap.lookup?_eq_some_iff.mp leads
  rw [value, there]

/-- Where a word leads to the same object in two heaps it is printed alike, if what is inside the
object is. At depth zero nothing inside is printed. -/
theorem value_congr {found : Object} {depth : Nat}
    (leads : heap.lookup? word = some found) (leads' : heap'.lookup? word = some found)
    (inside : ∀ less, depth = less + 1 →
      object heap (value heap less) found = object heap' (value heap' less) found) :
    value heap depth word = value heap' depth word := by
  cases depth with
  | zero =>
    obtain ⟨reference, rfl, there⟩ := Heap.lookup?_eq_some_iff.mp leads
    have there' : heap'.objects[reference.index]? = some found := leads'
    rw [value, there, value, there']
  | succ less => rw [value_of_lookup? leads, value_of_lookup? leads', inside less rfl]

/-- What is no reference is printed as it is shown, however deep it stands. Only objects use up
depth, so there is no bound to be met. -/
theorem value_of_not_ref (direct : word.isRef = false) (depth : Nat) :
    value heap depth word = word.text := by
  cases word with
  | ref reference => cases direct
  | scalar number =>
    unfold value
    rfl
  | slot place =>
    unfold value
    rfl

/-- What a chain prints behind a head whose tail this is. -/
def behind (heap : Heap) (item : Value → String) (links : Nat) (tail : Value) : String :=
  match heap.lookup? tail with
  | some (.aggregate _ next) =>
    ", " ++
      match links with
      | 0 => "..."
      | links + 1 => chain heap item links next
  | some _ => ", " ++ item tail
  | none => ""

/-- A chain is printed from the first two words of its cell, and is empty if there are none. This
takes the recursion of the printer apart into a cell and what is behind it. -/
theorem chain_eq (heap : Heap) (item : Value → String) (links : Nat) (fields : Array Value) :
    chain heap item links fields =
      match fields[0]?, fields[1]? with
      | some head, some tail => item head ++ behind heap item links tail
      | _, _ => "" := by
  unfold chain behind
  rfl

/-- Two ways of printing words that agree on the words given print them alike. -/
theorem items_congr (agree : ∀ word, holds word → item word = item' word) {words : Array Value}
    (given : ∀ word ∈ words, holds word) : items item words = items item' words := by
  unfold items
  rw [List.map_congr_left fun word member =>
    agree word (given word (Array.mem_toList_iff.mp member))]

/-- Whether an object is printed as the first cell of a chain. -/
def isCell : Object → Bool
  | .aggregate tag _ => Tag.name tag = cell
  | _ => false

/-- An object that is no cell prints the words that it keeps, and nothing else of the heap. So two
ways of printing words that agree on these print it alike, by cases on its kind. -/
theorem object_congr_words {found : Object} (single : isCell found = false)
    (agree : ∀ word ∈ found.words, item word = item' word) :
    object heap item found = object heap' item' found := by
  cases found with
  | string bytes => rfl
  | array elements =>
    have same : items item elements = items item' elements :=
      items_congr agree fun _ member => member
    rw [object, same, object]
  | aggregate tag fields =>
    have other : Tag.name tag ≠ cell := of_decide_eq_false single
    have same : items item fields = items item' fields :=
      items_congr agree fun _ member => member
    rw [object, if_neg other, same, object, if_neg other]
  | closure entry captured =>
    have each : captured.toList.map (fun word => ", " ++ item word) =
        captured.toList.map (fun word => ", " ++ item' word) :=
      List.map_congr_left fun word member => by rw [agree word (Array.mem_toList_iff.mp member)]
    rw [object, each, object]

section Agreement

variable (held : heap.Holds holds)
  (same : ∀ word, holds word → heap'.lookup? word = heap.lookup? word)
  (agree : ∀ word, holds word → item word = item' word)
include held same agree

/-- What is printed behind a tail depends on the tail, on the object that it leads to and on how
the chain goes on from there. So two heaps in which these agree print it alike. -/
theorem behind_congr {links : Nat} {tail : Value} (given : holds tail)
    (goesOn : ∀ less next, links = less + 1 → (∀ word ∈ next, holds word) →
      chain heap item less next = chain heap' item' less next) :
    behind heap item links tail = behind heap' item' links tail := by
  unfold behind
  rw [same tail given]
  cases leads : heap.lookup? tail with
  | none => rfl
  | some found =>
    cases found with
    | aggregate tag next =>
      have inside : ∀ word ∈ next, holds word := held _ (Heap.mem_of_lookup? leads)
      cases links with
      | zero => rfl
      | succ less =>
        dsimp only
        rw [goesOn less next rfl inside]
    | _ =>
      dsimp only
      rw [agree tail given]

/-- A chain prints words of its cells, which are objects of the heap. Proof: strong induction on
the links that may still be followed; behind the tail there are fewer of them. -/
theorem chain_congr {links : Nat} {fields : Array Value} (given : ∀ word ∈ fields, holds word) :
    chain heap item links fields = chain heap' item' links fields := by
  induction links using Nat.strongRecOn generalizing fields with
  | ind links later =>
    rw [chain_eq, chain_eq]
    cases first : fields[0]? with
    | none => rfl
    | some head =>
      cases second : fields[1]? with
      | none => rfl
      | some tail =>
        dsimp only
        rw [agree head (given _ (Array.mem_of_getElem? first)),
          behind_congr held same agree (given _ (Array.mem_of_getElem? second))
            fun less next more inside => later less (by omega) inside]

/-- An object is printed by way of words that are held, and of what they lead to. A cell is printed
as a chain, which follows its tail, and all others by the words they keep. -/
theorem object_congr {found : Object} (given : ∀ word ∈ found.words, holds word) :
    object heap item found = object heap' item' found := by
  cases first : isCell found with
  | false => exact object_congr_words first fun word member => agree word (given word member)
  | true =>
    cases found with
    | aggregate tag fields =>
      have named : Tag.name tag = cell := of_decide_eq_true first
      have given : ∀ word ∈ fields, holds word := given
      rw [object, if_pos named, chain_congr held same agree given, object, if_pos named]
    | _ => cases first

end Agreement

/-- Where every reference leads to an object, the mark is not printed. Proof: induction on the
depth. What is met inside an object is sound again, since the heap holds sound words only. -/
theorem valueMarking_eq_value {number : Int32 → Prop} {globals : Nat}
    (held : heap.Holds (Value.Sound number heap.size globals)) (mark : Ref → String)
    (depth : Nat) {word : Value} (sound : word.Sound number heap.size globals) :
    valueMarking mark heap depth word = value heap depth word := by
  rw [value_eq_valueMarking]
  induction depth generalizing word with
  | zero =>
    cases word with
    | ref reference =>
      unfold valueMarking
      rw [Array.getElem?_eq_getElem sound]
    | scalar k => rfl
    | slot place => rfl
  | succ depth later =>
    cases word with
    | ref reference =>
      unfold valueMarking
      rw [Array.getElem?_eq_getElem sound]
      exact object_congr held (fun _ _ => rfl) (fun word sound => later sound)
        (held _ (Array.getElem_mem sound))
    | scalar k => rfl
    | slot place => rfl

end BytecodeMachine.Print
