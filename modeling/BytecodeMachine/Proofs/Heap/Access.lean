import BytecodeMachine.Proofs.Heap.Shape
import BytecodeMachine.Proofs.Size
/-!
# What the heap answers

Exactly when a request for a word of an object is granted, and which word it is. Elements are
those of strings, arrays and aggregates, by a number that is not negative. Fields are the words
of any object, whatever its kind, and the entry of a closure.

An object is a closure with so many captures if its shape says so, and a capture of it is
replaced on demand, by any word.
-/
namespace BytecodeMachine

namespace Object

variable {object : Object} {position entry count : Nat} {index : Int32} {value : Value}

/-- An object is indexed if it is no closure and the index is inside, and then the position is the
index itself. -/
theorem elementPosition_eq_ok_iff :
    object.elementPosition index = .ok position ↔
      object.kind ≠ .closure ∧ (0 ≤ index ∧ index.toInt.toNat < object.length) ∧
        position = index.toInt.toNat := by
  simp only [elementPosition, elementIndex]
  by_cases inside : 0 ≤ index ∧ index.toInt.toNat < object.length
  · by_cases closed : object.kind = .closure
    · simp only [inside, and_self, if_true, closed, reduceCtorEq, ne_eq, not_true_eq_false,
        false_and]
    · simp only [inside, and_self, if_true, closed, if_false, Except.ok.injEq, ne_eq,
        not_false_eq_true, true_and, eq_comm]
  · simp only [inside, if_false, reduceCtorEq, false_and, and_false]

/-- An object with elements has as many words. -/
theorem isSome_word?_iff (elements : object.kind ≠ .closure) :
    (object.word? position).isSome ↔ position < object.length := by
  cases object with
  | string bytes => simp [word?, length]
  | array elements => simp [word?, length]
  | aggregate tag fields => simp [word?, length]
  | closure entry captured => exact absurd rfl elements

/-- Only strings refuse a word, and they take numbers. -/
theorem accepts_eq_ok_iff {a : Unit} :
    object.accepts value = .ok a ↔ (object.kind = .string → value.isScalar = true) := by
  cases object with
  | string bytes => cases value <;> simp [accepts, kind, Value.expectScalar, Value.isScalar]
  | _ => simp [accepts, kind]

/-- A field takes a value if it is there and the object does. The entry of a closure is no word,
so it is not there. -/
theorem checkField_eq_ok_iff {reference : Ref} {a : Unit} :
    object.checkField reference position value = .ok a ↔
      (object.word? position).isSome ∧ (object.kind = .string → value.isScalar = true) := by
  by_cases entry : object.kind = .closure ∧ position = 0
  · obtain ⟨closed, rfl⟩ := entry
    have none : object.word? 0 = none := by
      cases object with
      | closure entry captured => rfl
      | _ => cases closed
    simp [checkField, closed, none]
  · cases there : object.word? position with
    | none => simp [checkField, entry, there]
    | some word => simp [checkField, entry, there, accepts_eq_ok_iff]

/-- The shape of a closure is that of closures only. Its kind tells it from the other objects, and
its length, which counts the entry, the number of the captures. -/
theorem shape_eq_closure_iff :
    object.shape = ⟨.closure, count + 1, none, some entry⟩ ↔
      ∃ captured, object = .closure entry captured ∧ captured.size = count := by
  cases object with
  | closure entry' captured =>
    constructor
    · intro same
      obtain ⟨_, counted, _, entered⟩ := Shape.mk.inj same
      obtain rfl : entry' = entry := Option.some.inj entered
      exact ⟨captured, rfl, Nat.succ.inj counted⟩
    · rintro ⟨_, ⟨⟩, rfl⟩
      rfl
  | _ => simp [shape, kind]

end Object

namespace Heap

variable {heap after : Heap} {object : Ref} {position entry : Nat} {value : Value}

/-- A new object gets the next reference. -/
theorem alloc_eq_ok_iff {made : Object} :
    alloc made heap = .ok object after ↔
      heap.size < 4294967296 ∧ object = ⟨heap.size⟩ ∧ after = ⟨heap.objects.push made⟩ := by
  unfold alloc
  by_cases room : heap.size < 4294967296
  · simp only [room, if_true, EStateM.Result.ok.injEq, true_and, eq_comm]
  · simp only [room, if_false, reduceCtorEq, false_and]

/-- A field is a word of an object, or the entry of a closure if that is a number. Only at
position zero of a closure are the two apart: there is no word there, and everywhere else there is
no entry. -/
theorem field_eq_ok_iff :
    heap.field object position = .ok value ↔
      heap.word? object position = some value ∨
        position = 0 ∧ ∃ entry captured number,
          heap.objects[object.index]? = some (.closure entry captured) ∧
            int32OfNat entry = .ok number ∧ value = .scalar number := by
  unfold field word?
  cases got : heap.get object with
  | error cause =>
    have nowhere : heap.objects[object.index]? = none :=
      Option.eq_none_iff_forall_ne_some.mpr fun found leads => by
        rw [get_eq_ok_iff.mpr leads] at got
        cases got
    simp [nowhere]
  | ok found =>
    rw [get_eq_ok_iff.mp got]
    dsimp only [Option.bind_some]
    split
    · next entry captured =>
      have none : (Object.closure entry captured).word? 0 = none := rfl
      rw [none]
      cases known : int32OfNat entry with
      | ok number => simp [Except.map, eq_comm, known]
      | error cause => simp [Except.map, known]
    · next apart =>
      have plain : ¬ (position = 0 ∧ ∃ entry captured number,
          some found = some (.closure entry captured) ∧
            int32OfNat entry = .ok number ∧ value = .scalar number) := by
        rintro ⟨rfl, entry, captured, _, ⟨⟩, _⟩
        exact apart entry captured rfl rfl
      rw [or_iff_left plain]
      cases found.word? position <;> simp

/-- Behind the first one, fields are the words of an object. -/
theorem field_succ_eq_ok_iff :
    heap.field object (position + 1) = .ok value ↔
      heap.word? object (position + 1) = some value := by
  simp [field_eq_ok_iff]

/-- A field is set if it is a word of an object that takes the value. Everything is decided before
the one write, so the conditions are those of finding the place. -/
theorem setField_eq_ok_iff {a : Unit} :
    setField object position value heap = .ok a after ↔
      ∃ found, heap.objects[object.index]? = some found ∧
        (found.word? position).isSome ∧ (found.kind = .string → value.isScalar = true) ∧
        after = heap.put object position value := by
  have granted : heap.fieldPlace object position value = .ok () ↔
      ∃ found, heap.objects[object.index]? = some found ∧
        (found.word? position).isSome ∧ (found.kind = .string → value.isScalar = true) := by
    simp only [fieldPlace, ← get_eq_ok_iff]
    cases got : heap.get object with
    | error cause => simp
    | ok found => simp [Object.checkField_eq_ok_iff]
  unfold setField
  constructor
  · intro done
    split at done
    · next ok =>
      cases done
      obtain ⟨found, leads, there, takes⟩ := granted.mp ok
      exact ⟨found, leads, there, takes, rfl⟩
    · cases done
  · rintro ⟨found, leads, there, takes, rfl⟩
    rw [granted.mpr ⟨found, leads, there, takes⟩]

/-- A word resolves if it is a reference to an object that is there. -/
theorem resolve_eq_ok_iff {found : Object} :
    heap.resolve value = .ok found ↔
      ∃ object, value = .ref object ∧ heap.objects[object.index]? = some found := by
  cases value with
  | ref object => simp [resolve, Value.expectRef, get_eq_ok_iff]
  | _ => simp [resolve, Value.expectRef]

/-- An element is a word of an object that is not a closure. Indexing reads the word at the
position granted, which is there, since an index inside such an object always has a word. -/
theorem element_eq_ok_iff {container : Value} {index : Int32} :
    heap.element container index = .ok value ↔
      ∃ object found, container = .ref object ∧ heap.objects[object.index]? = some found ∧
        found.kind ≠ .closure ∧ 0 ≤ index ∧ found.word? index.toInt.toNat = some value := by
  unfold element
  constructor
  · intro answered
    split at answered
    · cases answered
    · next found resolved =>
      obtain ⟨object, rfl, leads⟩ := resolve_eq_ok_iff.mp resolved
      split at answered
      · cases answered
      · next position placed =>
        obtain ⟨elements, inside, rfl⟩ := Object.elementPosition_eq_ok_iff.mp placed
        obtain ⟨word, isWord⟩ :=
          Option.isSome_iff_exists.mp ((Object.isSome_word?_iff elements).mpr inside.2)
        rw [isWord, Option.getD_some] at answered
        cases answered
        exact ⟨object, found, rfl, leads, elements, inside.1, isWord⟩
  · rintro ⟨object, found, rfl, leads, elements, positive, isWord⟩
    have inside : index.toInt.toNat < found.length :=
      (Object.isSome_word?_iff elements).mp (Option.isSome_of_mem isWord)
    rw [resolve_eq_ok_iff.mpr ⟨object, rfl, leads⟩]
    dsimp only
    rw [Object.elementPosition_eq_ok_iff.mpr ⟨elements, ⟨positive, inside⟩, rfl⟩]
    simp only [isWord, Option.getD_some]

/-- A length is given of an object that is there, if it can be written as a number. The object is
looked up first, so a reference that leads nowhere is refused before anything is counted. -/
theorem length_eq_ok_iff {number : Int32} :
    heap.length value = .ok number ↔
      ∃ object found, value = .ref object ∧ heap.objects[object.index]? = some found ∧
        found.length < 2147483648 ∧ number = Int32.ofNat found.length := by
  unfold length
  constructor
  · intro answered
    split at answered
    · cases answered
    · next found resolved =>
      obtain ⟨object, rfl, leads⟩ := resolve_eq_ok_iff.mp resolved
      exact ⟨object, found, rfl, leads, int32OfNat_eq_ok_iff.mp answered⟩
  · rintro ⟨object, found, rfl, leads, fits⟩
    rw [resolve_eq_ok_iff.mpr ⟨object, rfl, leads⟩]
    exact int32OfNat_eq_ok_iff.mpr fits

section Captures

variable {captured : Array Value}
  (leads : heap.objects[object.index]? = some (.closure entry captured))
include leads

/-- Behind its entry a closure keeps the captured words, so that their numbers are shifted by
one. -/
theorem word?_capture (position : Nat) :
    heap.word? object (position + 1) = captured[position]? := by
  rw [word?, leads]
  rfl

/-- A capture is replaced by any word. A closure takes every value, and the new object is the
closure with that capture exchanged, at the same place in the heap. -/
theorem setField_capture (inside : position < captured.size) (value : Value) :
    setField object (position + 1) value heap =
      .ok () ⟨heap.objects.setIfInBounds object.index
        (.closure entry (captured.setIfInBounds position value))⟩ := by
  have granted : heap.fieldPlace object (position + 1) value = .ok () := by
    simp [fieldPlace, get_eq_ok_iff.mpr leads, Object.checkField, Object.word?, inside,
      Object.accepts]
  have replaced : heap.put object (position + 1) value =
      ⟨heap.objects.setIfInBounds object.index
        (.closure entry (captured.setIfInBounds position value))⟩ := by
    rw [put, Heap.mk.injEq]
    apply Array.ext_getElem?
    intro index
    rw [Array.getElem?_modify, Array.getElem?_setIfInBounds]
    split
    · next same =>
      obtain ⟨there, _⟩ := Array.getElem?_eq_some_iff.mp leads
      rw [← same, leads, if_pos there]
      rfl
    · rfl
  simp only [setField, granted, replaced]

end Captures

end Heap

end BytecodeMachine
