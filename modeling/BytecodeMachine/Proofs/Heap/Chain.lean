import BytecodeMachine.Proofs.Heap.Print
/-!
# Chains of list cells

A list cell is an aggregate of `cons` with a head and a tail, and a chain goes from tail to tail.
It is printed as its heads in braces, followed by what its last tail leads to: a string, an array
or a closure there is one more item.

Only the first cell is asked for its constructor. Any aggregate in a tail is taken for the next
cell, so of an aggregate with another constructor behind the last cell no more is shown than its
first field, and not even that if it is the only one.

Here nothing is said of chains that are longer than the bound.
-/
namespace BytecodeMachine

/-- A number is no reference. -/
theorem Value.isRef_of_isScalar {word : Value} (number : word.isScalar) : word.isRef = false := by
  cases word with
  | scalar number => rfl
  | _ => cases number

open Print

/-- A chain of cells that starts where a word leads: their heads, and the tail of the last one. -/
inductive Heap.Cells (heap : Heap) : Value → List Value → Value → Prop
  | last {word head tail : Value} {tag : Int32}
      (leads : heap.lookup? word = some (.aggregate tag #[head, tail]))
      (named : Tag.name tag = cell) : Cells heap word [head] tail
  | next {word head tail final : Value} {tag : Int32} {heads : List Value}
      (leads : heap.lookup? word = some (.aggregate tag #[head, tail]))
      (named : Tag.name tag = cell) (more : Cells heap tail heads final) :
      Cells heap word (head :: heads) final

/-- A chain has at least one cell, and so at least one head. -/
theorem Heap.Cells.heads_ne_nil {heap : Heap} {word tail : Value} {heads : List Value}
    (cells : heap.Cells word heads tail) : heads ≠ [] := by
  cases cells <;> simp

namespace Print

variable {heap : Heap} {word tail : Value} {heads : List Value} {found : Object}
  {item : Value → String}

/-- The text of a chain at one of its cells: the head, and then whatever is printed behind the
tail. The cell is an aggregate of two words, so neither look-up is in doubt. -/
theorem chain_cell (heap : Heap) (item : Value → String) (links : Nat) (head tail : Value) :
    chain heap item links #[head, tail] = item head ++ behind heap item links tail :=
  chain_eq heap item links #[head, tail]

/-- Behind a tail that leads to an aggregate comes a separator, and printing goes on there with a
link less. -/
theorem behind_aggregate {tag : Int32} {next : Array Value}
    (leads : heap.lookup? tail = some (.aggregate tag next)) (links : Nat) :
    behind heap item (links + 1) tail = ", " ++ chain heap item links next := by
  rw [behind, leads]

/-- If no link is left the rest is cut off, although there is more. -/
theorem behind_aggregate_zero {tag : Int32} {next : Array Value}
    (leads : heap.lookup? tail = some (.aggregate tag next)) :
    behind heap item 0 tail = ", ..." := by
  rw [behind, leads]
  rfl

/-- A chain within its bound prints its heads, and what is behind the last one. Proof: induction on
the cells, for any number of links. The first cell prints its head and a separator, and with a link
less the rest prints its own heads. -/
theorem chain_cells (item : Value → String) (cells : heap.Cells word heads tail) {links : Nat}
    (short : heads.length ≤ links + 1) :
    ∃ tag fields, heap.lookup? word = some (.aggregate tag fields) ∧ Tag.name tag = cell ∧
      chain heap item links fields =
        String.intercalate ", " (heads.map item) ++
          behind heap item (links + 1 - heads.length) tail := by
  induction cells generalizing links with
  | last leads named => exact ⟨_, _, leads, named, chain_cell heap item links _ _⟩
  | next leads named more later =>
    refine ⟨_, _, leads, named, ?_⟩
    have positive := List.length_pos_iff.mpr more.heads_ne_nil
    rw [List.length_cons] at short ⊢
    -- a next cell takes a link, and another head stands before what is behind the last one
    obtain ⟨links, rfl⟩ : ∃ fewer, links = fewer + 1 := ⟨links - 1, by omega⟩
    obtain ⟨_, fields, goesOn, _, printed⟩ := later (Nat.le_of_succ_le_succ short)
    rw [chain_cell, behind_aggregate goesOn, printed, List.map_cons,
      String.intercalate_cons_of_ne_nil (mt List.map_eq_nil_iff.mp more.heads_ne_nil),
      Nat.add_sub_add_right]
    simp only [String.append_assoc]

/-- The printed form of a chain within its bound. -/
theorem value_of_cells (cells : heap.Cells word heads tail) (short : heads.length ≤ limit + 1)
    (depth : Nat) :
    value heap (depth + 1) word =
      "\x7b" ++ String.intercalate ", " (heads.map (value heap depth)) ++
        behind heap (value heap depth) (limit + 1 - heads.length) tail ++ "\x7d" := by
  obtain ⟨tag, fields, leads, named, printed⟩ := chain_cells (value heap depth) cells short
  rw [value_of_lookup? leads, object, if_pos named, printed]
  simp only [String.append_assoc]

/-- A chain goes no further than a cell whose tail leads nowhere. If all fields are numbers the
head is printed as a number, and nothing stands behind it. -/
theorem chain_of_scalars {fields : Array Value} (numbers : ∀ word ∈ fields, word.isScalar)
    (links depth : Nat) :
    chain heap (value heap depth) links fields =
      match fields[0]?, fields[1]? with
      | some head, some _ => head.text
      | _, _ => "" := by
  have direct (index : Nat) {word : Value} (there : fields[index]? = some word) :
      word.isRef = false :=
    Value.isRef_of_isScalar (numbers word (Array.mem_of_getElem? there))
  rw [chain_eq]
  cases first : fields[0]? with
  | none => rfl
  | some head =>
    cases second : fields[1]? with
    | none => rfl
    | some tail =>
      dsimp only
      rw [value_of_not_ref (direct 0 first), behind, Heap.lookup?_of_not_ref (direct 1 second)]
      exact String.append_empty

/-- Objects other than cells that keep only numbers are printed alike at every depth. -/
theorem value_of_flat (leads : heap.lookup? tail = some found) (single : isCell found = false)
    (numbers : ∀ word ∈ found.words, word.isScalar) (depth : Nat) :
    value heap (depth + 1) tail = heap.print tail := by
  rw [Heap.print, limit, value_of_lookup? leads, value_of_lookup? leads]
  refine object_congr_words single fun word member => ?_
  have direct := Value.isRef_of_isScalar (numbers word member)
  rw [value_of_not_ref direct, value_of_not_ref direct]

/-- Numbers are printed the same at every depth, since there is nothing to follow in them. -/
theorem map_value_of_scalars (numbers : ∀ head ∈ heads, head.isScalar) (depth : Nat) :
    heads.map (value heap depth) = heads.map Value.text :=
  List.map_congr_left fun head member =>
    value_of_not_ref (Value.isRef_of_isScalar (numbers head member)) depth

/-- A chain of numbers, not longer than the bound, with an object in its last tail that is no cell
and keeps only numbers. The object is printed as it is alone behind the heads, unless it is an
aggregate: of that, the first of two or more fields is printed and nothing else, and three dots
if the chain is as long as the bound. -/
theorem prints_last_tail {heap : Heap} {word tail : Value} {heads : List Value} {found : Object}
    (cells : heap.Cells word heads tail) (short : heads.length ≤ 257)
    (numbers : ∀ head ∈ heads, head.isScalar) (leads : heap.lookup? tail = some found)
    (single : isCell found = false) (flat : ∀ word ∈ found.words, word.isScalar) :
    (found.kind ≠ .aggregate →
      heap.print word =
        "\x7b" ++ String.intercalate ", " (heads.map Value.text) ++ ", " ++ heap.print tail ++
          "\x7d") ∧
    ∀ tag fields, found = .aggregate tag fields →
      heap.print word =
        "\x7b" ++ String.intercalate ", " (heads.map Value.text) ++ ", " ++
          (if heads.length = 257 then "..."
            else match fields[0]?, fields[1]? with
              | some first, some _ => first.text
              | _, _ => "") ++ "\x7d" := by
  have printed : heap.print word =
      "\x7b" ++ String.intercalate ", " (heads.map Value.text) ++
        behind heap (value heap 255) (257 - heads.length) tail ++ "\x7d" := by
    rw [← map_value_of_scalars numbers 255]
    exact value_of_cells cells short 255
  constructor
  · intro item
    have shown : behind heap (value heap 255) (257 - heads.length) tail =
        ", " ++ heap.print tail := by
      rw [← value_of_flat leads single flat 254, behind, leads]
      cases found with
      | aggregate tag fields => exact absurd rfl item
      | _ => rfl
    rw [printed, shown]
    simp only [String.append_assoc]
  · rintro tag fields rfl
    rw [printed]
    by_cases full : heads.length = 257
    · have spent : 257 - heads.length = 0 := by omega
      rw [if_pos full, spent, behind_aggregate_zero leads]
      simp only [String.append_assoc]
      rfl
    · obtain ⟨links, more⟩ : ∃ links, 257 - heads.length = links + 1 :=
        ⟨256 - heads.length, by omega⟩
      have flat : ∀ word ∈ fields, word.isScalar := flat
      rw [if_neg full, more, behind_aggregate leads, chain_of_scalars flat]
      simp only [String.append_assoc]

/-- An array, an aggregate of `Some` with one field, and chains that end in them. The numbers are
the tags of `Some` and of `cons`. -/
def improper : Heap :=
  ⟨#[.array #[.scalar 5], .aggregate 11858757 #[.scalar 4],
    .aggregate 848787 #[.scalar 1, .ref ⟨0⟩], .aggregate 848787 #[.scalar 2, .ref ⟨2⟩],
    .aggregate 848787 #[.scalar 1, .ref ⟨1⟩]]⟩

/-- Two chains that do not end in a number: a cell whose tail is an array, which is printed behind
the heads, and one whose tail is an aggregate of a single word, where the text ends behind the
separator. -/
theorem prints_last_tail_improper :
    Tag.name 848787 = "cons" ∧ Tag.name 11858757 = "Some" ∧
      improper.print (.ref ⟨3⟩) = "\x7b2, 1, [5]\x7d" ∧
      improper.print (.ref ⟨4⟩) = "\x7b1, \x7d" := by
  have cons : Tag.name 848787 = cell := by decide +kernel
  have array : improper.Cells (.ref ⟨3⟩) [.scalar 2, .scalar 1] (.ref ⟨0⟩) :=
    .next rfl cons (.last rfl cons)
  have aggregate : improper.Cells (.ref ⟨4⟩) [.scalar 1] (.ref ⟨1⟩) := .last rfl cons
  refine ⟨cons, by decide +kernel, ?_, ?_⟩
  · exact ((prints_last_tail array (by decide) (by decide) rfl rfl (by decide)).1
      (by decide)).trans (by decide +kernel)
  · exact ((prints_last_tail aggregate (by decide) (by decide) rfl (by decide +kernel)
      (by decide)).2 _ _ rfl).trans (by decide +kernel)

/-- It is not so that every object in the last tail is printed as it is alone. An aggregate there
is taken for one more cell, and its constructor is not printed. -/
theorem loses_constructor_of_last_tail :
    ¬ ∀ (heap : Heap) (word tail : Value) (heads : List Value) (found : Object),
      heap.Cells word heads tail → heads.length ≤ 257 → (∀ head ∈ heads, head.isScalar) →
      heap.lookup? tail = some found → isCell found = false →
      (∀ word ∈ found.words, word.isScalar) →
      heap.print word =
        "\x7b" ++ String.intercalate ", " (heads.map Value.text) ++ ", " ++ heap.print tail ++
          "\x7d" := by
  intro shown
  have whole := shown improper (.ref ⟨4⟩) (.ref ⟨1⟩) [.scalar 1] _
    (.last rfl (by decide +kernel)) (by decide) (by decide) rfl (by decide +kernel) (by decide)
  exact absurd whole (by decide +kernel)

end Print

end BytecodeMachine
