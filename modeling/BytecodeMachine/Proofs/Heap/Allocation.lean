import BytecodeMachine.Proofs.Action.Series
import BytecodeMachine.Proofs.Heap.Access
import BytecodeMachine.Proofs.Heap.Unfolding
/-!
# Printing while the heap grows

Printing goes from object to object and reads nothing else of the heap. If no object keeps a
reference that leads nowhere, then the objects that are made later are never met, whatever they
are. So a word is printed as before, also where the text is cut off: on a way that goes round in
a circle, in an object that is nested too deeply, behind a chain that is too long.

A reference that leads nowhere is printed as such only until the object is made that it leads to.
-/
namespace BytecodeMachine

open BytecodeMachine.Action

namespace Heap

variable {heap : Heap} {word : Value}

/-- Objects at the end of a heap are not met from words that lead to older ones. -/
theorem lookup?_append (below : leadsBelow heap.size word) (more : Array Object) :
    Heap.lookup? ⟨heap.objects ++ more⟩ word = heap.lookup? word := by
  cases word with
  | ref reference => exact Array.getElem?_append_left (of_decide_eq_true below)
  | _ => rfl

/-- A reference below the number of objects leads to one of them. -/
theorem exists_lookup?_of_isRef (isRef : word.isRef = true) (below : leadsBelow heap.size word) :
    ∃ found, heap.lookup? word = some found := by
  cases word with
  | ref reference =>
    have inside : reference.index < heap.objects.size := of_decide_eq_true below
    exact ⟨_, Array.getElem?_eq_getElem inside⟩
  | _ => cases isRef

/-- Making objects one after another puts them at the end of the heap, as long as it has room. Once
it has none each further request is refused and changes nothing, so what is appended is what has
been granted. -/
theorem series_alloc (objects : List Object) (heap : Heap) :
    ∃ made : Array Object, (series (objects.map alloc) heap).2 = ⟨heap.objects ++ made⟩ := by
  induction objects generalizing heap with
  | nil => exact ⟨#[], by rw [Array.append_empty]; rfl⟩
  | cons object objects later =>
    rw [List.map_cons, series_cons]
    by_cases room : heap.size < 4294967296
    · have made : alloc object heap = .ok ⟨heap.size⟩ ⟨heap.objects.push object⟩ :=
        alloc_eq_ok_iff.mpr ⟨room, rfl, rfl⟩
      obtain ⟨others, last⟩ := later ⟨heap.objects.push object⟩
      rw [outcome_of_ok made]
      refine ⟨#[object] ++ others, last.trans ?_⟩
      rw [← Array.append_assoc, Array.push_eq_append]
    · have refused : alloc object heap = .error (.heap (.exhausted heap.size)) heap := if_neg room
      rw [outcome_of_error refused]
      exact later heap

end Heap

namespace Print

open Heap

variable {heap : Heap} {word : Value}

/-- Whatever may still be nested, a word is printed without the objects behind those that it can
lead to. -/
theorem value_append (live : heap.Holds fun word => leadsBelow heap.size word)
    (below : leadsBelow heap.size word) (more : Array Object) (depth : Nat) :
    value heap depth word = value ⟨heap.objects ++ more⟩ depth word := by
  induction depth using Nat.strongRecOn generalizing word with
  | ind depth later =>
    cases isRef : word.isRef with
    | false => rw [value_of_not_ref isRef, value_of_not_ref isRef]
    | true =>
      obtain ⟨found, leads⟩ := exists_lookup?_of_isRef isRef below
      refine value_congr leads ((lookup?_append below more).trans leads) fun less deeper => ?_
      -- what the object keeps is live again, so the words in it are printed alike
      exact object_congr live (fun _ below => lookup?_append below more)
        (fun _ below => later less (by omega) below) (live found (mem_of_lookup? leads))

end Print

namespace Heap

/-- Printing does not change as the heap grows. If the references that objects keep lead to
objects, and the word is no reference that leads nowhere, then any objects may be put at the end of
the heap, or made one after another as far as there is room, and the word is printed as before. -/
theorem prints_alike_as_heap_grows {heap : Heap} {word : Value}
    (live : ∀ object ∈ heap.objects, ∀ word ∈ object.words, leadsBelow heap.size word)
    (below : leadsBelow heap.size word) :
    (∀ more : Array Object, Heap.print ⟨heap.objects ++ more⟩ word = heap.print word) ∧
      ∀ objects : List Object,
        (series (objects.map alloc) heap).2.print word = heap.print word := by
  have alike (more : Array Object) : Heap.print ⟨heap.objects ++ more⟩ word = heap.print word :=
    (Print.value_append live below more Print.limit).symm
  refine ⟨alike, fun objects => ?_⟩
  obtain ⟨made, last⟩ := series_alloc objects heap
  rw [last, alike]

/-- An array that is its own element, and a chain of one cell that is its own tail. -/
def circular : Heap := ⟨#[.array #[.ref ⟨0⟩], .aggregate 848787 #[.ref ⟨0⟩, .ref ⟨1⟩]]⟩

/-- The array that is made later leads nowhere and is not met, and the cycle is printed as before.
The same text comes out if the objects are there from the start. -/
theorem prints_alike_as_heap_grows_circular :
    Heap.print ⟨circular.objects ++ #[.string #[], .array #[.ref ⟨9⟩]]⟩ (.ref ⟨1⟩) =
        circular.print (.ref ⟨1⟩) ∧
      (series [alloc (.array #[.ref ⟨9⟩])] circular).2.print (.ref ⟨1⟩) =
        circular.print (.ref ⟨1⟩) := by
  have live : ∀ object ∈ circular.objects, ∀ word ∈ object.words,
      leadsBelow circular.size word := by decide
  have below : leadsBelow circular.size (.ref ⟨1⟩) := by decide
  obtain ⟨appended, made⟩ := prints_alike_as_heap_grows live below
  exact ⟨appended _, made [.array #[.ref ⟨9⟩]]⟩

/-- The word itself has to lead to an object. -/
example : Heap.print ⟨#[]⟩ (.ref ⟨0⟩) = "<dangling @0>" ∧
    Heap.print ⟨#[] ++ #[.string #[]]⟩ (.ref ⟨0⟩) = "\"\"" := by
  decide +kernel

end Heap

end BytecodeMachine
