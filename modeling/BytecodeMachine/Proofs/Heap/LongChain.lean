import BytecodeMachine.Proofs.Heap.Chain
/-!
# Chains beyond the bound

A chain of numbers shows all its heads if it has no more cells than the bound. If it has more,
the heads within the bound are shown and three dots behind them, whatever comes further on. So it
does not matter where a longer chain ends, or whether it does: one that runs into a circle is a
chain with as many cells as one likes.
-/
namespace BytecodeMachine

open Print

namespace Heap

variable {heap : Heap} {word middle tail : Value} {front back heads : List Value}

/-- Cells without end, each in the tail of the one before, with their heads. As a heap is finite,
some of them come again and again. -/
def Endless (heap : Heap) (cells heads : Nat → Value) : Prop :=
  ∀ index, ∃ tag, Tag.name tag = cell ∧
    heap.lookup? (cells index) = some (.aggregate tag #[heads index, cells (index + 1)])

/-- The first word of a chain leads to an aggregate, whether it is the last cell as well or not. -/
theorem Cells.exists_lookup? (cells : heap.Cells word heads tail) :
    ∃ tag fields, heap.lookup? word = some (.aggregate tag fields) := by
  cases cells with
  | last leads _ => exact ⟨_, _, leads⟩
  | next leads _ _ => exact ⟨_, _, leads⟩

/-- A chain goes on in the last tail of another one. -/
theorem Cells.append (first : heap.Cells word front middle)
    (second : heap.Cells middle back tail) : heap.Cells word (front ++ back) tail := by
  induction first with
  | last leads named => exact .next leads named second
  | next leads named _ later => exact .next leads named (later second)

/-- A chain falls into two wherever it is cut. Proof: induction on the heads in front of the cut;
the tail of the last cell there is the word that the second chain begins with. -/
theorem Cells.split (begins : front ≠ []) (goesOn : back ≠ [])
    (cells : heap.Cells word (front ++ back) tail) :
    ∃ middle, heap.Cells word front middle ∧ heap.Cells middle back tail := by
  obtain ⟨first, back, rfl⟩ := List.exists_cons_of_ne_nil goesOn
  induction front generalizing word with
  | nil => exact absurd rfl begins
  | cons head front later =>
    cases front with
    | nil =>
      cases cells with
      | next leads named more => exact ⟨_, .last leads named, more⟩
    | cons second front =>
      cases cells with
      | next leads named more =>
        obtain ⟨middle, before, behind⟩ := later (List.cons_ne_nil _ _) more
        exact ⟨middle, .next leads named before, behind⟩

/-- A circle may be gone round any number of times. -/
theorem Cells.rounds {loop : List Value} (circle : heap.Cells word loop word) (count : Nat) :
    heap.Cells word (List.replicate (count + 1) loop).flatten word := by
  induction count with
  | zero => simpa using circle
  | succ count later =>
    rw [List.replicate_succ, List.flatten_cons]
    exact circle.append later

/-- Cells without end are a chain of any length. Proof: induction on the length, where the cells
behind the first one are without end again and give a chain that is shorter by one. -/
theorem Endless.cells {cells heads : Nat → Value} (endless : heap.Endless cells heads)
    (count : Nat) :
    heap.Cells (cells 0) ((List.range (count + 1)).map heads) (cells (count + 1)) := by
  obtain ⟨tag, named, leads⟩ := endless 0
  induction count generalizing cells heads tag with
  | zero => exact .last leads named
  | succ count later =>
    -- behind the first cell they are without end as well
    have rest : heap.Endless (fun index => cells (index + 1)) fun index => heads (index + 1) :=
      fun index => endless (index + 1)
    obtain ⟨other, named', leads'⟩ := rest 0
    have behind := later rest other named' leads'
    rw [List.range_succ_eq_map, List.map_cons, List.map_map]
    exact .next leads named behind

/-- A chain of numbers within the bound, and what is behind it. -/
theorem print_of_cells (cells : heap.Cells word heads tail)
    (numbers : ∀ head ∈ heads, head.isScalar) (short : heads.length ≤ 257) :
    heap.print word =
      "\x7b" ++ String.intercalate ", " (heads.map Value.text) ++
        behind heap (value heap 255) (257 - heads.length) tail ++ "\x7d" := by
  rw [← map_value_of_scalars numbers 255]
  exact value_of_cells cells short 255

/-- A chain of numbers within the bound is printed with all its heads. -/
theorem print_of_short_cells (cells : heap.Cells word heads tail)
    (numbers : ∀ head ∈ heads, head.isScalar) (ends : tail.isScalar)
    (short : heads.length ≤ 257) :
    heap.print word = "\x7b" ++ String.intercalate ", " (heads.map Value.text) ++ "\x7d" := by
  have nothing : behind heap (value heap 255) (257 - heads.length) tail = "" := by
    rw [behind, lookup?_of_not_ref (Value.isRef_of_isScalar ends)]
  rw [print_of_cells cells numbers short, nothing, String.append_empty]

/-- A chain of numbers beyond the bound is cut there, and nothing of the rest is seen. Proof: the
chain is split at the bound. Its front uses up all links, and what is behind its last head begins
with a cell, in whose place the dots are printed. -/
theorem print_of_long_cells (cells : heap.Cells word heads tail)
    (numbers : ∀ head ∈ heads, head.isScalar) (long : 257 < heads.length) :
    heap.print word =
      "\x7b" ++ String.intercalate ", " ((heads.take 257).map Value.text) ++ ", ...\x7d" := by
  have full : (heads.take 257).length = 257 := List.length_take_of_le (by omega)
  rw [← List.take_append_drop 257 heads] at cells
  obtain ⟨middle, front, back⟩ := cells.split
    (List.ne_nil_of_length_pos (by omega)) (by simpa using long)
  -- the cells within the bound use up all links, and behind them comes another cell
  obtain ⟨tag, fields, leads⟩ := back.exists_lookup?
  have dots : behind heap (value heap 255) (257 - (heads.take 257).length) middle = ", ..." := by
    rw [full]
    exact behind_aggregate_zero leads
  have shown : ∀ head ∈ heads.take 257, head.isScalar :=
    fun head member => numbers head (List.mem_of_mem_take member)
  rw [print_of_cells front shown (Nat.le_of_eq full), dots]
  simp only [String.append_assoc]
  rfl

/-- Cells without end show as many heads as the bound allows. Any number of them is a chain, so one
cell more than the bound is already a chain that is cut. -/
theorem print_of_endless {cells heads : Nat → Value} (endless : heap.Endless cells heads)
    (numbers : ∀ index, (heads index).isScalar) :
    heap.print (cells 0) =
      "\x7b" ++ String.intercalate ", " ((List.range 257).map fun index => (heads index).text) ++
        ", ...\x7d" := by
  -- one cell more than the bound is enough of them
  have shown : ∀ head ∈ (List.range 258).map heads, head.isScalar := by
    intro head member
    obtain ⟨index, _, rfl⟩ := List.mem_map.mp member
    exact numbers index
  have long : 257 < ((List.range 258).map heads).length := by
    rw [List.length_map, List.length_range]
    decide
  have within : ((List.range 258).map heads).take 257 = (List.range 257).map heads := by
    rw [← List.map_take, List.take_range]
    rfl
  rw [print_of_long_cells (endless.cells 257) shown long, within, List.map_map]
  rfl

/-- A way into a circle, and the circle over and over. Enough rounds of it are a chain beyond the
bound, as every round has a cell, and so the chain is cut like any other. -/
theorem print_of_circle {entry : Value} {lead loop : List Value}
    (cells : heap.Cells word lead entry) (circle : heap.Cells entry loop entry)
    (numbers : ∀ head ∈ lead ++ loop, head.isScalar) :
    heap.print word =
      "\x7b" ++ String.intercalate ", "
        (((lead ++ (List.replicate 257 loop).flatten).take 257).map Value.text) ++
          ", ...\x7d" := by
  obtain ⟨inLead, inLoop⟩ := List.forall_mem_append.mp numbers
  have around := cells.append (circle.rounds 256)
  have filled := List.length_pos_iff.mpr cells.heads_ne_nil
  have some := List.length_pos_iff.mpr circle.heads_ne_nil
  refine print_of_long_cells around (fun head member => ?_) ?_
  · rcases List.mem_append.mp member with before | inside
    · exact inLead head before
    · obtain ⟨_, copy, member⟩ := List.mem_flatten.mp inside
      exact inLoop head (List.eq_of_mem_replicate copy ▸ member)
  · rw [List.length_append, List.length_flatten, List.map_replicate, List.sum_replicate_nat]
    omega

/-- Chains of numbers show at most 257 heads. One that ends in a number shows all its heads in
braces if it has no more than 257 cells, and otherwise the first 257 and three dots. One that does
not end shows the first 257 and three dots, however long it takes to come round; given by the
cells that lead into a circle and those of the circle, it shows the former and then the latter
over and over. -/
theorem cuts_chains_at_bound (heap : Heap) :
    (∀ word heads tail, heap.Cells word heads tail → (∀ head ∈ heads, head.isScalar) →
      tail.isScalar →
      heap.print word =
        if heads.length ≤ 257 then
          "\x7b" ++ String.intercalate ", " (heads.map Value.text) ++ "\x7d"
        else
          "\x7b" ++ String.intercalate ", " ((heads.take 257).map Value.text) ++ ", ...\x7d") ∧
    (∀ cells heads, heap.Endless cells heads → (∀ index, (heads index).isScalar) →
      heap.print (cells 0) =
        "\x7b" ++ String.intercalate ", " ((List.range 257).map fun index => (heads index).text) ++
          ", ...\x7d") ∧
    ∀ word lead entry loop, heap.Cells word lead entry → heap.Cells entry loop entry →
      (∀ head ∈ lead ++ loop, head.isScalar) →
      heap.print word =
        "\x7b" ++ String.intercalate ", "
          (((lead ++ (List.replicate 257 loop).flatten).take 257).map Value.text) ++
            ", ...\x7d" := by
  refine ⟨?_, fun cells heads => print_of_endless, fun word lead entry loop => print_of_circle⟩
  intro word heads tail cells numbers ends
  by_cases short : heads.length ≤ 257
  · rw [if_pos short, print_of_short_cells cells numbers ends short]
  · rw [if_neg short, print_of_long_cells cells numbers (by omega)]

/-- Numbers that fall to zero, so many of them. -/
def falling (count : Nat) : List Value :=
  (List.range count).reverse.map fun index => .scalar (Int32.ofNat index)

/-- A chain of 258 cells, of which the first object is the last cell. -/
def countdown : Heap :=
  ⟨(Array.range 258).map fun index => .aggregate 848787 #[.scalar (Int32.ofNat index),
    if index = 0 then .scalar 0 else .ref ⟨index - 1⟩]⟩

/-- A cell that leads into a circle of two, and one that is its own tail. -/
def circles : Heap :=
  ⟨#[.aggregate 848787 #[.scalar 1, .ref ⟨1⟩], .aggregate 848787 #[.scalar 2, .ref ⟨2⟩],
    .aggregate 848787 #[.scalar 3, .ref ⟨1⟩], .aggregate 848787 #[.scalar 7, .ref ⟨3⟩]]⟩

/-- The countdown is a chain from each of its words on, by induction on the position: the first
word ends with the number zero, and every other one links to the word before it. -/
theorem countdown_cells (named : Tag.name 848787 = cell) {index : Nat} (inside : index < 258) :
    countdown.Cells (.ref ⟨index⟩) (falling (index + 1)) (.scalar 0) := by
  have leads (index : Nat) (inside : index < 258) :
      countdown.lookup? (.ref ⟨index⟩) = some (.aggregate 848787 #[.scalar (Int32.ofNat index),
        if index = 0 then .scalar 0 else .ref ⟨index - 1⟩]) := by
    simp [countdown, lookup?, inside]
  induction index with
  | zero => exact .last (leads 0 inside) named
  | succ index later =>
    have counts : falling (index + 2) =
        .scalar (Int32.ofNat (index + 1)) :: falling (index + 1) := by
      rw [falling, List.range_succ, List.reverse_append]
      rfl
    rw [counts]
    exact .next (leads (index + 1) inside) named (later (by omega))

/-- Chains of 257 and of 258 cells, one that leads into a circle, and a cell that is a circle. The
first is shown whole, and the others are cut behind 257 heads. -/
theorem cuts_chains_at_bound_countdown :
    countdown.print (.ref ⟨256⟩) =
        "\x7b" ++ String.intercalate ", " ((falling 257).map Value.text) ++ "\x7d" ∧
      countdown.print (.ref ⟨257⟩) =
        "\x7b" ++ String.intercalate ", " (((falling 258).take 257).map Value.text) ++
          ", ...\x7d" ∧
      circles.print (.ref ⟨0⟩) =
        "\x7b" ++ String.intercalate ", "
          ((([.scalar 1] ++ (List.replicate 257 [.scalar 2, .scalar 3]).flatten :
            List Value).take 257).map Value.text) ++ ", ...\x7d" ∧
      circles.print (.ref ⟨3⟩) =
        "\x7b" ++ String.intercalate ", " ((List.range 257).map fun _ => "7") ++ ", ...\x7d" := by
  have named : Tag.name 848787 = cell := by decide +kernel
  have numbers (count : Nat) : ∀ head ∈ falling count, head.isScalar := by
    intro head member
    obtain ⟨index, _, rfl⟩ := List.mem_map.mp member
    rfl
  have length (count : Nat) : (falling count).length = count := by simp [falling]
  have lead : circles.Cells (.ref ⟨0⟩) [.scalar 1] (.ref ⟨1⟩) := .last rfl named
  have circle : circles.Cells (.ref ⟨1⟩) [.scalar 2, .scalar 3] (.ref ⟨1⟩) :=
    .next rfl named (.last rfl named)
  obtain ⟨ends, _⟩ := cuts_chains_at_bound countdown
  obtain ⟨_, endless, around⟩ := cuts_chains_at_bound circles
  refine ⟨?_, ?_, around _ _ _ _ lead circle (by decide), ?_⟩
  · exact (ends _ _ _ (countdown_cells named (by decide)) (numbers 257) rfl).trans
      (if_pos (Nat.le_of_eq (length 257)))
  · exact (ends _ _ _ (countdown_cells named (by decide)) (numbers 258) rfl).trans
      (if_neg (by rw [length]; decide))
  · have seven : (Value.scalar 7).text = "7" := by decide +kernel
    rw [← seven]
    exact endless (fun _ => .ref ⟨3⟩) (fun _ => .scalar 7) (fun _ => ⟨848787, named, rfl⟩)
      fun _ => rfl

end Heap

end BytecodeMachine
