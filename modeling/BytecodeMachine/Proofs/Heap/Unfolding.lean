import BytecodeMachine.Proofs.Heap.Chain
import BytecodeMachine.Proofs.Tag
import BytecodeMachine.Proofs.Text.Decimal
import BytecodeMachine.Proofs.Text.Hexadecimal
import BytecodeMachine.Proofs.Text.Lossy
/-!
# Printing unfolds what a word leads to

What a word leads to unfolds into a tree, unless there is a way to go on forever. An object that
is shared occurs in the tree as often as it is reached. The cells of a chain are one node, with a
tree for each head and one for the last tail.

A tree has a text by plain recursion. The text knows no bound, and shares nothing with printing:
numbers are shown by the usual numerals, constructors by the letters of their tags, strings by the
text that their bytes show. A word is printed as the text of its tree as long as the tree is within
the bounds of printing: at most so many objects one in another, and at most so many cells in a
chain. The heads of a chain, and what is in its last tail, stand one level below the first cell.
-/
namespace BytecodeMachine

open Print

/-- What a word leads to, unfolded. -/
inductive Tree
  | number (value : Int32)
  | place (slot : Slot)
  /-- A string, by the text that its bytes show. -/
  | string (shown : String)
  | array (elements : List Tree)
  /-- An aggregate that is no list cell. -/
  | aggregate (tag : Int32) (fields : List Tree)
  | closure (entry : Nat) (captured : List Tree)
  /-- List cells, by their heads and the tail of the last one. -/
  | chain (heads : List Tree) (tail : Tree)

namespace Tree

/-- Whether the tree is that of a word that leads to no object. -/
def isWord : Tree → Bool
  | number _ | place _ => true
  | _ => false

/-- Texts with commas between them. -/
def commas (texts : List String) : String := String.intercalate ", " texts

/-- The text of a place: an ampersand and what it is in. -/
def placeText : Slot → String
  | .global index => "&G(" ++ toString index ++ ")"
  | .stack index => "&S(" ++ toString index ++ ")"
  | .field object index => "&@" ++ toString object.index ++ "[" ++ toString index ++ "]"

/-- The text of a tree. A chain shows what its last tail leads to as one more item. -/
def text : Tree → String
  | number value => toString value.toInt
  | place slot => placeText slot
  | string shown => "\"" ++ shown ++ "\""
  | array elements => "[" ++ commas (elements.map text) ++ "]"
  | aggregate tag fields =>
    if fields.isEmpty then Tag.shown tag
    else Tag.shown tag ++ " (" ++ commas (fields.map text) ++ ")"
  | closure entry captured =>
    "<closure " ++ commas (("0x" ++ String.ofList (Nat.toDigits 16 entry)) :: captured.map text) ++
      ">"
  | chain heads tail =>
    if tail.isWord then "\x7b" ++ commas (heads.map text) ++ "\x7d"
    else "\x7b" ++ commas (heads.map text ++ [text tail]) ++ "\x7d"

/-- A tree with at most so many cells in a chain and at most so many objects on a path. -/
inductive Within (cells : Nat) : Nat → Tree → Prop
  | number {depth : Nat} {value : Int32} : Within cells depth (.number value)
  | place {depth : Nat} {slot : Slot} : Within cells depth (.place slot)
  | string {depth : Nat} {shown : String} : Within cells (depth + 1) (.string shown)
  | array {depth : Nat} {elements : List Tree}
      (inner : ∀ tree ∈ elements, Within cells depth tree) :
      Within cells (depth + 1) (.array elements)
  | aggregate {depth : Nat} {tag : Int32} {fields : List Tree}
      (inner : ∀ tree ∈ fields, Within cells depth tree) :
      Within cells (depth + 1) (.aggregate tag fields)
  | closure {depth entry : Nat} {captured : List Tree}
      (inner : ∀ tree ∈ captured, Within cells depth tree) :
      Within cells (depth + 1) (.closure entry captured)
  | chain {depth : Nat} {heads : List Tree} {tail : Tree} (short : heads.length ≤ cells)
      (inner : ∀ tree ∈ heads, Within cells depth tree) (final : Within cells depth tail) :
      Within cells (depth + 1) (.chain heads tail)

end Tree

mutual

/-- A word leads to what unfolds into a tree. Of an aggregate in the last tail of a chain nothing
is said. -/
inductive Heap.Unfolds (heap : Heap) : Value → Tree → Prop
  | number {value : Int32} : Unfolds heap (.scalar value) (.number value)
  | place {slot : Slot} : Unfolds heap (.slot slot) (.place slot)
  | string {value : Value} {bytes : Array UInt8} {shown : String}
      (leads : heap.lookup? value = some (.string bytes))
      (shows : Utf8.Shows bytes.toList shown.toList) : Unfolds heap value (.string shown)
  | array {value : Value} {elements : Array Value} {trees : List Tree}
      (leads : heap.lookup? value = some (.array elements))
      (inner : UnfoldAll heap elements.toList trees) : Unfolds heap value (.array trees)
  | aggregate {value : Value} {tag : Int32} {fields : Array Value} {trees : List Tree}
      (leads : heap.lookup? value = some (.aggregate tag fields)) (other : Tag.shown tag ≠ "cons")
      (inner : UnfoldAll heap fields.toList trees) : Unfolds heap value (.aggregate tag trees)
  | closure {value : Value} {entry : Nat} {captured : Array Value} {trees : List Tree}
      (leads : heap.lookup? value = some (.closure entry captured))
      (inner : UnfoldAll heap captured.toList trees) : Unfolds heap value (.closure entry trees)
  | chain {value tail : Value} {heads : List Value} {trees : List Tree} {last : Tree}
      (cells : heap.Cells value heads tail)
      (ends : ∀ tag fields, heap.lookup? tail ≠ some (.aggregate tag fields))
      (inner : UnfoldAll heap heads trees) (final : Unfolds heap tail last) :
      Unfolds heap value (.chain trees last)

/-- Words unfold into trees, one by one. -/
inductive Heap.UnfoldAll (heap : Heap) : List Value → List Tree → Prop
  | nil : UnfoldAll heap [] []
  | cons {value : Value} {tree : Tree} {values : List Value} {trees : List Tree}
      (first : Unfolds heap value tree) (rest : UnfoldAll heap values trees) :
      UnfoldAll heap (value :: values) (tree :: trees)

end

namespace Heap

variable {heap : Heap} {word : Value} {tree : Tree} {words : List Value} {trees : List Tree}

/-- There is one tree for each word. -/
theorem UnfoldAll.length_eq (all : heap.UnfoldAll words trees) : words.length = trees.length := by
  induction words generalizing trees with
  | nil =>
    cases all
    rfl
  | cons word words later =>
    cases all with
    | cons first rest => rw [List.length_cons, List.length_cons, later rest]

/-- So there are no trees if and only if there are no words. -/
theorem UnfoldAll.isEmpty_eq (all : heap.UnfoldAll words trees) :
    words.isEmpty = trees.isEmpty := by
  cases all <;> rfl

/-- Words that are printed as the texts of their trees, one by one. The induction is on the words;
there is one tree for each, so both lists end together. -/
theorem UnfoldAll.map_eq {item : Value → String} (all : heap.UnfoldAll words trees)
    (agree : ∀ tree ∈ trees, ∀ word, heap.Unfolds word tree → item word = tree.text) :
    words.map item = trees.map Tree.text := by
  induction words generalizing trees with
  | nil =>
    cases all
    rfl
  | cons word words later =>
    cases all with
    | @cons _ tree _ trees first rest =>
      have head := agree tree List.mem_cons_self word first
      have others := later rest fun tree member => agree tree (List.mem_cons_of_mem _ member)
      rw [List.map_cons, List.map_cons, head, others]

/-- If each word unfolds then all of them do, one after the other. -/
theorem UnfoldAll.exists_of_forall (each : ∀ word ∈ words, ∃ tree, heap.Unfolds word tree) :
    ∃ trees, heap.UnfoldAll words trees := by
  induction words with
  | nil => exact ⟨[], .nil⟩
  | cons word words later =>
    obtain ⟨tree, first⟩ := each word List.mem_cons_self
    obtain ⟨trees, rest⟩ := later fun word member => each word (List.mem_cons_of_mem _ member)
    exact ⟨tree :: trees, .cons first rest⟩

end Heap

namespace Print

variable {heap : Heap} {word : Value} {tree : Tree} {depth : Nat}

/-- Commas before the items of a list, or between them behind another one. The first item is
general, because behind it the second one takes its place. -/
theorem append_join_eq_commas (first : String) (rest : List String) :
    first ++ String.join (rest.map fun text => ", " ++ text) = Tree.commas (first :: rest) := by
  induction rest generalizing first with
  | nil => exact String.append_empty
  | cons second rest later =>
    have behind := later second
    rw [Tree.commas] at behind ⊢
    rw [String.intercalate_cons_cons, ← behind, List.map_cons, String.join_cons]
    simp only [String.append_assoc]

/-- A tag is shown as `cons` exactly if it is the tag of list cells. -/
theorem shown_eq_cons_iff {tag : Int32} : Tag.shown tag = "cons" ↔ Tag.name tag = cell := by
  rw [Tag.name_eq_shown]
  exact Iff.rfl

/-- A place is printed with the usual numerals, whatever it is a place in. -/
theorem slot_text_eq (slot : Slot) : slot.text = Tree.placeText slot := by
  cases slot <;> rfl

/-- A string is printed as the text that its bytes show, which is the only one. -/
theorem text_of_shows {bytes : Array UInt8} {shown : String}
    (shows : Utf8.Shows bytes.toList shown.toList) : Utf8.text bytes.toList = shown := by
  rw [Utf8.text, shows.decodeLossy_eq, String.ofList_toList]

/-- Behind its last head a chain prints its last tail, unless that is a number or a place. The tail
leads to no aggregate, so of all trees only those of words and of other objects are left. -/
theorem behind_last {tail : Value} (unfolds : heap.Unfolds tail tree)
    (ends : ∀ tag fields, heap.lookup? tail ≠ some (.aggregate tag fields))
    (item : Value → String) (links : Nat) :
    behind heap item links tail = if tree.isWord then "" else ", " ++ item tail := by
  rw [behind]
  cases unfolds with
  | number => rfl
  | place => rfl
  | string leads shows =>
    rw [leads]
    rfl
  | array leads inner =>
    rw [leads]
    rfl
  | aggregate leads other inner => exact absurd leads (ends _ _)
  | closure leads inner =>
    rw [leads]
    rfl
  | chain cells _ inner final =>
    cases cells with
    | last leads named => exact absurd leads (ends _ _)
    | next leads named more => exact absurd leads (ends _ _)

/-- A word is printed as the text of its tree if the tree is within the bounds. Proof: induction on
the bounds of the tree, with one way to unfold for each of its forms. The text is spelled out
without the printer, so every form compares the two: numerals, tags, strings and hexadecimal digits
each by their own lemma, and chains by the one about cells. -/
theorem value_eq_text (unfolds : heap.Unfolds word tree) (within : tree.Within (limit + 1) depth) :
    value heap depth word = tree.text := by
  -- What an object keeps stands one level below it, and is within bounds that are one lower.
  induction within generalizing word with
  | @number depth number =>
    cases unfolds
    rw [value_of_not_ref rfl, Value.text, Decimal.text_eq_toString, Tree.text]
  | @place depth slot =>
    cases unfolds
    rw [value_of_not_ref rfl, Value.text, slot_text_eq, Tree.text]
  | string =>
    cases unfolds with
    | string leads shows => rw [value_of_lookup? leads, object, text_of_shows shows, Tree.text]
  | array inner later =>
    cases unfolds with
    | array leads all =>
      rw [value_of_lookup? leads, object, items, Tree.text,
        all.map_eq fun tree member word => later tree member, Tree.commas]
  | @aggregate _ tag trees inner later =>
    cases unfolds with
    | @aggregate _ _ fields _ leads other all =>
      have each := all.map_eq fun tree member word => later tree member
      have empty : fields.isEmpty = trees.isEmpty :=
        Array.isEmpty_toList.symm.trans all.isEmpty_eq
      have single : Tag.name tag ≠ cell := mt shown_eq_cons_iff.mpr other
      rw [value_of_lookup? leads, object, if_neg single, items, each, empty, Tag.name_eq_shown,
        Tree.text, Tree.commas]
  | closure inner later =>
    cases unfolds with
    | closure leads all =>
      have each := all.map_eq fun tree member word => later tree member
      rw [value_of_lookup? leads, object, Hexadecimal.short_eq, Tree.text, ← each,
        ← append_join_eq_commas, List.map_map]
      simp only [String.append_assoc]
      rfl
  | @chain _ trees tree short inner _ later final =>
    cases unfolds with
    | @chain _ tail heads _ _ cells ends all ending =>
      have each := all.map_eq fun tree member word => later tree member
      have length := all.length_eq
      have filled : trees.map Tree.text ≠ [] := by
        rw [← each]
        exact mt List.map_eq_nil_iff.mp cells.heads_ne_nil
      rw [value_of_cells cells (by omega), each, behind_last ending ends, final ending, Tree.text]
      cases tree.isWord with
      | true => simp only [Tree.commas, if_true, String.append_empty]
      | false =>
        simp only [Tree.commas, Bool.false_eq_true, if_false, String.append_assoc,
          String.intercalate_append_of_ne_nil filled (List.cons_ne_nil _ _),
          String.intercalate_singleton]

end Print

namespace Heap

/-- A word is kept by the object that another word leads to. -/
def Child (heap : Heap) (word parent : Value) : Prop :=
  ∃ found, heap.lookup? parent = some found ∧ word ∈ found.words

/-- A word leads to another one, by way of any number of objects. -/
inductive Reaches (heap : Heap) : Value → Value → Prop
  | refl (word : Value) : Reaches heap word word
  | step {word inner last : Value} (child : heap.Child inner word)
      (further : Reaches heap inner last) : Reaches heap word last

/-- A cell has a head and a tail, and an aggregate in its tail is a cell as well. -/
def formed (heap : Heap) : Object → Bool
  | .aggregate tag fields =>
    Tag.shown tag ≠ "cons" ||
      match fields with
      | ⟨[_, tail]⟩ =>
        match heap.lookup? tail with
        | some (.aggregate other _) => Tag.shown other = "cons"
        | _ => true
      | _ => false
  | _ => true

variable {heap : Heap} {word tail : Value} {tree : Tree}

/-- A formed aggregate of the tag of cells is a cell of two words, and if its tail leads to an
aggregate then that is a cell too. It is what the condition on heaps says, read at this tag. -/
theorem cell_of_formed {tag : Int32} {fields : Array Value}
    (formed : heap.formed (.aggregate tag fields)) (named : Tag.name tag = cell) :
    ∃ head tail, fields = #[head, tail] ∧
      ∀ other next, heap.lookup? tail = some (.aggregate other next) → Tag.name other = cell := by
  have spelled := shown_eq_cons_iff.mpr named
  unfold Heap.formed at formed
  simp only [spelled, ne_eq, not_true_eq_false, decide_false, Bool.false_or] at formed
  split at formed
  · next head tail =>
    refine ⟨head, tail, rfl, fun other next leads => ?_⟩
    rw [leads] at formed
    exact shown_eq_cons_iff.mp (of_decide_eq_true formed)
  · cases formed

/-- What a cell leads to unfolds into a chain. The form of the tree is determined by the object,
and no other form has an aggregate of this tag. -/
theorem Unfolds.cells {tag : Int32} {fields : Array Value} (unfolds : heap.Unfolds tail tree)
    (leads : heap.lookup? tail = some (.aggregate tag fields)) (named : Tag.name tag = cell) :
    ∃ heads final trees last, heap.Cells tail heads final ∧
      (∀ tag fields, heap.lookup? final ≠ some (.aggregate tag fields)) ∧
      heap.UnfoldAll heads trees ∧ heap.Unfolds final last := by
  cases unfolds with
  | chain cells ends inner final => exact ⟨_, _, _, _, cells, ends, inner, final⟩
  | number => cases leads
  | place => cases leads
  | aggregate leads' other inner =>
    rw [leads] at leads'
    cases leads'
    exact absurd (shown_eq_cons_iff.mpr named) other
  | string leads' shows =>
    rw [leads] at leads'
    cases leads'
  | array leads' inner =>
    rw [leads] at leads'
    cases leads'
  | closure leads' inner =>
    rw [leads] at leads'
    cases leads'

/-- An object unfolds if its words do. For most objects the trees of the words are the branches. A
cell whose tail is a cell as well goes in front of the chain that the tail has unfolded into, so
that chains are taken whole. -/
theorem exists_unfolds_of_words {found : Object} (leads : heap.lookup? word = some found)
    (formed : heap.formed found) (each : ∀ inner ∈ found.words, ∃ tree, heap.Unfolds inner tree) :
    ∃ tree, heap.Unfolds word tree := by
  have all (words : Array Value) (same : found.words = words) :
      ∃ trees, heap.UnfoldAll words.toList trees :=
    UnfoldAll.exists_of_forall fun inner member =>
      each inner (same ▸ Array.mem_toList_iff.mp member)
  cases found with
  | string bytes =>
    have shows : Utf8.Shows bytes.toList (Utf8.text bytes.toList).toList := by
      rw [Utf8.text, String.toList_ofList]
      exact Utf8.shows_decodeLossy bytes.toList
    exact ⟨_, .string leads shows⟩
  | array elements =>
    obtain ⟨trees, inner⟩ := all elements rfl
    exact ⟨_, .array leads inner⟩
  | closure entry captured =>
    obtain ⟨trees, inner⟩ := all captured rfl
    exact ⟨_, .closure leads inner⟩
  | aggregate tag fields =>
    by_cases named : Tag.name tag = cell
    · obtain ⟨head, tail, rfl, continues⟩ := cell_of_formed formed named
      obtain ⟨first, ofHead⟩ := each head (by simp [Object.words])
      obtain ⟨second, ofTail⟩ := each tail (by simp [Object.words])
      by_cases more : ∃ other next, heap.lookup? tail = some (.aggregate other next)
      · -- the tail has unfolded into a chain, which the cell is put in front of
        obtain ⟨other, next, behind⟩ := more
        obtain ⟨_, _, _, _, cells, ends, inner, final⟩ :=
          ofTail.cells behind (continues other next behind)
        exact ⟨_, .chain (.next leads named cells) ends (.cons ofHead inner) final⟩
      · exact ⟨_, .chain (.last leads named) (fun other next behind => more ⟨other, next, behind⟩)
          (.cons ofHead .nil) ofTail⟩
    · obtain ⟨trees, inner⟩ := all fields rfl
      exact ⟨_, .aggregate leads (mt shown_eq_cons_iff.mp named) inner⟩

/-- If no way from a word goes on forever or leads nowhere, and the cells are formed, the word
unfolds into a tree. -/
theorem exists_unfolds (finite : Acc heap.Child word)
    (live : ∀ reference, heap.Reaches word (.ref reference) → reference.index < heap.size)
    (cells : ∀ inner found, heap.Reaches word inner → heap.lookup? inner = some found →
      heap.formed found) : ∃ tree, heap.Unfolds word tree := by
  induction finite with
  | intro word _ later =>
    cases word with
    | scalar number => exact ⟨_, .number⟩
    | slot place => exact ⟨_, .place⟩
    | ref reference =>
      have there := live reference (.refl _)
      have leads : heap.lookup? (.ref reference) = some heap.objects[reference.index] :=
        Array.getElem?_eq_getElem there
      refine exists_unfolds_of_words leads (cells _ _ (.refl _) leads) fun inner member => ?_
      have child : heap.Child inner (.ref reference) := ⟨_, leads, member⟩
      exact later inner child (fun reference further => live reference (.step child further))
        fun last found further => cells last found (.step child further)

/-- Whether a word leads to none but the first objects of the heap. -/
def leadsBelow (bound : Nat) : Value → Bool
  | .ref reference => reference.index < bound
  | _ => true

/-- Every object leads to older ones only. It is so in a heap that has not been written to. -/
def LeadsBack (heap : Heap) : Prop :=
  ∀ index (inside : index < heap.size), ∀ word ∈ heap.objects[index].words, leadsBelow index word

instance (heap : Heap) : Decidable heap.LeadsBack :=
  inferInstanceAs (Decidable (∀ index (inside : index < heap.size),
    ∀ word ∈ heap.objects[index].words, leadsBelow index word))

/-- What leads below a bound leads below a greater one. -/
theorem leadsBelow_mono {less bound : Nat} (below : leadsBelow less word) (more : less ≤ bound) :
    leadsBelow bound word := by
  cases word with
  | ref reference =>
    simp only [leadsBelow, decide_eq_true_eq] at below ⊢
    exact Nat.lt_of_lt_of_le below more
  | _ => rfl

/-- In a heap where objects lead back, the words inside an object lead below the number of the
object itself, which is smaller than the bound. -/
theorem LeadsBack.child_below {bound : Nat} {inner : Value} (back : heap.LeadsBack)
    (child : heap.Child inner word) (below : leadsBelow bound word) :
    ∃ less, less < bound ∧ leadsBelow less inner := by
  obtain ⟨found, leads, member⟩ := child
  obtain ⟨reference, rfl, there⟩ := lookup?_eq_some_iff.mp leads
  obtain ⟨inside, rfl⟩ := Array.getElem?_eq_some_iff.mp there
  exact ⟨reference.index, of_decide_eq_true below, back reference.index inside inner member⟩

/-- From object to object it goes further and further back. -/
theorem LeadsBack.acc {bound : Nat} (back : heap.LeadsBack) (below : leadsBelow bound word) :
    Acc heap.Child word := by
  induction bound using Nat.strongRecOn generalizing word with
  | ind bound later =>
    refine .intro _ fun inner child => ?_
    obtain ⟨less, smaller, innerBelow⟩ := back.child_below child below
    exact later less smaller innerBelow

/-- By induction on the way, everything reached from a word leads below the same bound as the
word. -/
theorem LeadsBack.reaches_below {bound : Nat} {last : Value} (back : heap.LeadsBack)
    (below : leadsBelow bound word) (reaches : heap.Reaches word last) :
    leadsBelow bound last := by
  induction reaches generalizing bound with
  | refl word => exact below
  | step child further later =>
    obtain ⟨less, smaller, innerBelow⟩ := back.child_below child below
    exact leadsBelow_mono (later innerBelow) (Nat.le_of_lt smaller)

/-- Printing unfolds the objects that a word leads to. If all of them are there, no way through
them goes on forever and their cells are formed, then the word has an unfolding; and if no chain
in it has more than 257 cells and no path more than 256 objects, the word is printed as the text
of its unfolding, however much the objects share. -/
theorem prints_unfolding {heap : Heap} {word : Value}
    (live : ∀ reference, heap.Reaches word (.ref reference) → reference.index < heap.size)
    (finite : Acc heap.Child word)
    (cells : ∀ inner found, heap.Reaches word inner → heap.lookup? inner = some found →
      heap.formed found) :
    (∃ tree, heap.Unfolds word tree) ∧
      ∀ tree, heap.Unfolds word tree → tree.Within 257 256 → heap.print word = tree.text :=
  ⟨exists_unfolds finite live cells, fun _ unfolds within => value_eq_text unfolds within⟩

/-- A closure, an aggregate that keeps it, one that keeps nothing, a string whose last byte begins
no character, and two cells that end in the string. An array leads to all of them, to the cells
twice. The numbers are the tags of `Some`, of `None` and of `cons`. -/
def shared : Heap :=
  ⟨#[.closure 42 #[.scalar (-7)], .aggregate 11858757 #[.ref ⟨0⟩, .scalar 4],
    .aggregate 10548101 #[], .string #[104, 105, 0xFF], .aggregate 848787 #[.scalar 5, .ref ⟨3⟩],
    .aggregate 848787 #[.ref ⟨3⟩, .ref ⟨4⟩],
    .array #[.ref ⟨5⟩, .ref ⟨5⟩, .slot (.global 3), .ref ⟨1⟩, .ref ⟨2⟩, .ref ⟨0⟩]]⟩

/-- An array of a chain twice, a place, an aggregate with arguments, one without, and a closure
with a negative captured number. The chain has an ill-formed string in it twice over, shown with
the replacement character. All of it is reached without a cycle, although much of it is shared. -/
theorem prints_unfolding_shared :
    shared.print (.ref ⟨6⟩) =
      "[\x7b\"hi\uFFFD\", 5, \"hi\uFFFD\"\x7d, \x7b\"hi\uFFFD\", 5, \"hi\uFFFD\"\x7d, &G(3), " ++
        "Some (<closure 0x2a, -7>, 4), None, <closure 0x2a, -7>]" := by
  have cons : Tag.name 848787 = cell := by decide +kernel
  have back : shared.LeadsBack := by decide
  have closure : shared.Unfolds (.ref ⟨0⟩) (.closure 42 [.number (-7)]) :=
    .closure rfl (.cons .number .nil)
  have some : shared.Unfolds (.ref ⟨1⟩) (.aggregate 11858757 [_, .number 4]) :=
    .aggregate rfl (by decide +kernel) (.cons closure (.cons .number .nil))
  have none : shared.Unfolds (.ref ⟨2⟩) (.aggregate 10548101 []) :=
    .aggregate rfl (by decide +kernel) .nil
  have string : shared.Unfolds (.ref ⟨3⟩) (.string "hi\uFFFD") :=
    .string rfl (Utf8.shows_iff.mpr (by decide +kernel))
  have chain : shared.Unfolds (.ref ⟨5⟩) (.chain [_, .number 5] _) :=
    .chain (.next rfl cons (.last rfl cons)) nofun (.cons string (.cons .number .nil)) string
  have array : shared.Unfolds (.ref ⟨6⟩) (.array [_, _, .place (.global 3), _, _, _]) :=
    .array rfl (.cons chain (.cons chain (.cons .place (.cons some (.cons none
      (.cons closure .nil))))))
  have within : Tree.Within 257 256 (.array [.chain [.string "hi\uFFFD", .number 5]
      (.string "hi\uFFFD"), .chain [.string "hi\uFFFD", .number 5] (.string "hi\uFFFD"),
      .place (.global 3), .aggregate 11858757 [.closure 42 [.number (-7)], .number 4],
      .aggregate 10548101 [], .closure 42 [.number (-7)]]) := by
    have closure (depth : Nat) : Tree.Within 257 (depth + 1) (.closure 42 [.number (-7)]) :=
      .closure (List.forall_mem_singleton.mpr .number)
    have chain : Tree.Within 257 255
        (.chain [.string "hi\uFFFD", .number 5] (.string "hi\uFFFD")) :=
      .chain (by decide)
        (List.forall_mem_cons.mpr ⟨.string, List.forall_mem_singleton.mpr .number⟩) .string
    have some : Tree.Within 257 255
        (.aggregate 11858757 [.closure 42 [.number (-7)], .number 4]) :=
      .aggregate (List.forall_mem_cons.mpr ⟨closure 253, List.forall_mem_singleton.mpr .number⟩)
    have none : Tree.Within 257 255 (.aggregate 10548101 []) := .aggregate (List.forall_mem_nil _)
    refine .array ?_
    simp only [List.forall_mem_cons]
    exact ⟨chain, chain, .place, some, none, closure 254, List.forall_mem_nil _⟩
  have formed : ∀ found ∈ shared.objects, shared.formed found := by decide +kernel
  have prints := (prints_unfolding
    (fun reference reaches => of_decide_eq_true (back.reaches_below (rfl : leadsBelow 7 _) reaches))
    (back.acc (rfl : leadsBelow 7 _))
    fun inner found _ leads => formed found (mem_of_lookup? leads)).2 _ array within
  rw [prints]
  simp only [Tree.text, List.map]
  decide +kernel

end Heap

end BytecodeMachine
