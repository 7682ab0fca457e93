import BytecodeMachine.Proofs.Heap
import BytecodeMachine.Proofs.Heap.Access
import BytecodeMachine.Proofs.Word
/-!
# Elements as an array

The elements of an object are an array: an element is there if its number is not negative and
below the length, what has been stored into it is read from it afterwards, and a store reaches
no other element, of this object or of another one. Two words that lead to the same object are
the same reference, so there is no element that has two names.

Strings are arrays of bytes. They take numbers only, and keep what is left of a number modulo
256. Closures have a length as well, but no elements.
-/
namespace BytecodeMachine

/-- A byte is read back as a number that is not negative: the residue modulo 256 of the number that
it was made from. Both the number and the byte are determined by the same 32 bits. -/
theorem ofByte_lowByte (number : Int32) :
    Value.ofByte (lowByte number) = .scalar (Int32.ofInt (number.toInt % 256)) := by
  have low : 0 ≤ number.toInt % 256 := Int.emod_nonneg _ (by decide)
  have high : number.toInt % 256 < 256 := Int.emod_lt_of_pos _ (by decide)
  have byte : ((lowByte number).toNat : Int) = number.toInt % 256 := by
    have bits : number.toInt = (number.toUInt32.toNat : Int).bmod 4294967296 :=
      BitVec.toInt_eq_toNat_bmod _
    rw [lowByte, UInt32.toNat_toUInt8, bits, Int.bmod_def]
    omega
  have size : (Int32.ofNat (lowByte number).toNat).toInt = number.toInt % 256 := by
    rw [toInt_ofNat (by omega), byte]
  rw [Value.ofByte, Value.ofInt_eq, Value.scalar.injEq, ← Int32.toInt_inj, size,
    Word.toInt_reduced_of_fits (by omega) (by omega), Int32.toInt_ofInt_of_le (by omega) (by omega)]

namespace Object

variable {object : Object} {position : Nat} {value : Value}

/-- What is read back of a value that has been put into an object. A string keeps the low byte of
a number, as a number from 0 to 255. -/
def readBack : Object → Value → Value
  | .string _, .scalar number => .scalar (Int32.ofInt (number.toInt % 256))
  | _, value => value

/-- A word put into an object is read back from there. A string keeps the low byte of it only,
which is what reading back says. -/
theorem word?_put_self (takes : object.kind = .string → value.isScalar = true)
    (there : (object.word? position).isSome) :
    (object.put position value).word? position = some (object.readBack value) := by
  cases object with
  | string bytes =>
    cases value with
    | scalar number =>
      have inside : position < bytes.size := by simpa [word?] using there
      simp only [put, word?, Array.getElem?_setIfInBounds_self_of_lt inside, Option.map_some,
        ofByte_lowByte, readBack]
    | ref object => cases takes rfl
    | slot place => cases takes rfl
  | array elements =>
    have inside : position < elements.size := by simpa [word?] using there
    exact Array.getElem?_setIfInBounds_self_of_lt inside
  | aggregate tag fields =>
    have inside : position < fields.size := by simpa [word?] using there
    exact Array.getElem?_setIfInBounds_self_of_lt inside
  | closure entry captured =>
    cases position with
    | zero => cases there
    | succ position =>
      have inside : position < captured.size := by simpa [word?] using there
      exact Array.getElem?_setIfInBounds_self_of_lt inside

/-- Whether there is an element depends on the shape of an object alone. -/
theorem elementPosition_congr {other : Object} (same : other.shape = object.shape)
    (index : Int32) : other.elementPosition index = object.elementPosition index := by
  simp only [shape, Shape.mk.injEq] at same
  simp only [elementPosition, elementIndex, same]

end Object

namespace Heap

variable {heap after : Heap} {container value : Value} {index : Int32} {object : Object}
  {reference : Ref} {position : Nat}

/-- A word leads to an object that has elements, and one of them has this number. -/
def HasElement (heap : Heap) (container : Value) (index : Int32) (object : Object) : Prop :=
  heap.lookup? container = some object ∧ object.kind ≠ .closure ∧
    0 ≤ index.toInt ∧ index.toInt < object.length

/-- To have an element, written out: the container leads to an object that may be indexed, and the
index is inside. -/
theorem hasElement_iff :
    heap.HasElement container index object ↔
      ∃ reference, container = .ref reference ∧
        heap.objects[reference.index]? = some object ∧ object.kind ≠ .closure ∧
        0 ≤ index ∧ index.toInt.toNat < object.length := by
  rw [HasElement, lookup?_eq_some_iff, Int32.le_iff_toInt_le, Int32.toInt_zero]
  constructor
  · rintro ⟨⟨reference, same, leads⟩, elements, low, high⟩
    exact ⟨reference, same, leads, elements, low, by omega⟩
  · rintro ⟨reference, same, leads, elements, low, high⟩
    exact ⟨⟨reference, same, leads⟩, elements, low, by omega⟩

/-- Reading an element succeeds exactly for the containers and indexes that have one. Both
directions take the conditions of the read apart and put them together again. -/
theorem exists_element_iff :
    (∃ found, heap.element container index = .ok found) ↔
      ∃ object, heap.HasElement container index object := by
  simp only [element_eq_ok_iff, hasElement_iff]
  constructor
  · rintro ⟨word, reference, object, same, leads, elements, positive, isWord⟩
    have inside := (Object.isSome_word?_iff elements).mp (Option.isSome_of_mem isWord)
    exact ⟨object, reference, same, leads, elements, positive, inside⟩
  · rintro ⟨object, reference, same, leads, elements, positive, inside⟩
    obtain ⟨word, isWord⟩ :=
      Option.isSome_iff_exists.mp ((Object.isSome_word?_iff elements).mpr inside)
    exact ⟨word, reference, object, same, leads, elements, positive, isWord⟩

/-- A store is granted if the element is there and the object takes the word, and it replaces
that element. -/
theorem setElement_eq_ok_iff {a : Unit} :
    setElement container index value heap = .ok a after ↔
      ∃ object reference, heap.HasElement container index object ∧
        (object.kind = .string → value.isScalar = true) ∧ container = .ref reference ∧
        after = heap.put reference index.toInt.toNat value := by
  simp only [hasElement_iff]
  constructor
  · intro done
    unfold setElement at done
    split at done
    · next reference position granted =>
      cases done
      simp only [elementPlace, Answer.bind_eq_ok_iff, Object.elementPosition_eq_ok_iff,
        Object.accepts_eq_ok_iff, get_eq_ok_iff] at granted
      obtain ⟨_, leads, object, there, _, ⟨elements, inside, rfl⟩, _, takes, ⟨⟩⟩ := granted
      obtain rfl : container = .ref reference := by
        cases container with
        | ref other => exact congrArg Value.ref (Except.ok.inj leads)
        | _ => cases leads
      exact ⟨object, reference, ⟨reference, rfl, there, elements, inside⟩, takes, rfl, rfl⟩
    · cases done
  · rintro ⟨object, reference, ⟨_, rfl, there, elements, inside⟩, takes, ⟨⟩, rfl⟩
    have granted : heap.elementPlace (.ref reference) index value =
        .ok (reference, index.toInt.toNat) := by
      simp only [elementPlace, Answer.bind_eq_ok_iff, Object.elementPosition_eq_ok_iff,
        get_eq_ok_iff]
      exact ⟨_, rfl, object, there, _, ⟨elements, inside, rfl⟩, (),
        Object.accepts_eq_ok_iff.mpr takes, rfl⟩
    rw [setElement, granted]

/-- A word that has been put into an object that takes it is there afterwards. -/
theorem word?_put_self (leads : heap.objects[reference.index]? = some object)
    (takes : object.kind = .string → value.isScalar = true)
    (there : (object.word? position).isSome) :
    (heap.put reference position value).word? reference position =
      some (object.readBack value) := by
  rw [word?, getElem?_put, if_pos rfl, leads]
  exact Object.word?_put_self takes there

/-- Reading through a reference that leads somewhere is reading in the object found. -/
theorem element_of_leads (leads : heap.objects[reference.index]? = some object) (index : Int32) :
    heap.element (.ref reference) index =
      (object.elementPosition index).map fun position =>
        (object.word? position).getD Value.zero := by
  simp only [element, resolve_eq_ok_iff.mpr ⟨reference, rfl, leads⟩]
  cases object.elementPosition index <;> rfl

/-- What has been put into an object that takes it is read from there afterwards. The object has
kept its kind and its length, so the read is granted under the same conditions. -/
theorem element_put_self (leads : heap.objects[reference.index]? = some object)
    (elements : object.kind ≠ .closure) (positive : 0 ≤ index)
    (inside : index.toInt.toNat < object.length)
    (takes : object.kind = .string → value.isScalar = true) :
    (heap.put reference index.toInt.toNat value).element (.ref reference) index =
      .ok (object.readBack value) := by
  have shape := Object.shape_put index.toInt.toNat value object
  have kind : (object.put index.toInt.toNat value).kind = object.kind := congrArg Shape.kind shape
  refine element_eq_ok_iff.mpr
    ⟨reference, object.put index.toInt.toNat value, rfl, ?_, kind ▸ elements, positive, ?_⟩
  · rw [getElem?_put, if_pos rfl, leads, Option.map_some]
  · exact Object.word?_put_self takes ((Object.isSome_word?_iff elements).mpr inside)

/-- Objects of the same shape with the same word at an index have the same element there. The shape
decides whether the index is granted and for which position, and the word at that position is the
element. -/
theorem element_congr (shapes : ∀ reference, after.shape? reference = heap.shape? reference)
    (words : ∀ reference, container = .ref reference → 0 ≤ index →
      after.word? reference index.toInt.toNat = heap.word? reference index.toInt.toNat) :
    after.element container index = heap.element container index := by
  cases container with
  | scalar number => rfl
  | slot place => rfl
  | ref reference =>
    have shape := shapes reference
    have word := words reference rfl
    simp only [shape?, word?] at shape word
    cases leads : heap.objects[reference.index]? with
    | none =>
      rw [leads, Option.map_none, Option.map_eq_none_iff] at shape
      simp only [element, resolve, Value.expectRef, get, leads, shape]
    | some object =>
      rw [leads, Option.map_some, Option.map_eq_some_iff] at shape
      obtain ⟨other, leads', same⟩ := shape
      rw [element_of_leads leads, element_of_leads leads', Object.elementPosition_congr same]
      cases placed : object.elementPosition index with
      | error cause => rfl
      | ok position =>
        obtain ⟨_, ⟨positive, _⟩, rfl⟩ := Object.elementPosition_eq_ok_iff.mp placed
        have both := word positive
        rw [leads, leads', Option.bind_some, Option.bind_some] at both
        simp only [Except.map, both]

/-- Elements are an array. There is an element exactly where a live reference to a string, an array
or an aggregate is followed by a number below the length, and it is replaced exactly there,
for a string only by a number. What has been stored is read from there afterwards, by a string
modulo 256; whatever else may be asked for as an element is answered as before, also if there
is none; and no object changes its kind, its length, its tag or its entry. A store that is
refused changes nothing. -/
theorem elements_obey_array_laws (heap : Heap) (container : Value) (index : Int32)
    (value : Value) :
    ((∃ found, heap.element container index = .ok found) ↔
      ∃ object, heap.HasElement container index object) ∧
    ((∃ after, setElement container index value heap = .ok () after) ↔
      ∃ object, heap.HasElement container index object ∧
        (object.kind = .string → value.isScalar = true)) ∧
    (∀ object after, heap.HasElement container index object →
      setElement container index value heap = .ok () after →
      after.element container index = .ok (object.readBack value) ∧
      (∀ other index', (other, index') ≠ (container, index) →
        after.element other index' = heap.element other index') ∧
      ∀ reference, after.shape? reference = heap.shape? reference) ∧
    ∀ cause after, setElement container index value heap = .error cause after → after = heap := by
  refine ⟨exists_element_iff, ?_, ?_, fun cause after => (setElement_spares ..).of_error⟩
  · simp only [setElement_eq_ok_iff]
    constructor
    · rintro ⟨_, object, _, there, takes, _⟩
      exact ⟨object, there, takes⟩
    · rintro ⟨object, there, takes⟩
      obtain ⟨reference, same, _⟩ := hasElement_iff.mp there
      exact ⟨_, object, reference, there, takes, same, rfl⟩
  · intro object after there done
    obtain ⟨stored, reference, found, takes, rfl, rfl⟩ := setElement_eq_ok_iff.mp done
    obtain rfl : stored = object := Option.some.inj (found.1.symm.trans there.1)
    obtain ⟨_, ⟨⟩, leads, elements, positive, inside⟩ := hasElement_iff.mp there
    have shapes := shape?_put reference index.toInt.toNat value heap
    refine ⟨element_put_self leads elements positive inside takes, ?_, shapes⟩
    intro other index' apart
    refine element_congr shapes ?_
    rintro object rfl positive'
    refine word?_put_of_ne ?_ value heap
    rintro ⟨rfl, same⟩
    refine apart (congrArg (Value.ref reference, ·) ?_)
    rw [← ofNat_toNat positive, ← ofNat_toNat positive', same]

/-- A heap with a string and an array. -/
def stringAndArray : Heap := ⟨#[.string #[1, 2, 3], .array #[.ref ⟨0⟩, .scalar 7]]⟩

/-- Of 300 a string keeps 44. The byte behind it and the array stay as they are, since they are
elements at other places. -/
theorem elements_obey_array_laws_stringAndArray :
    ∃ after, setElement (.ref ⟨0⟩) 1 (.scalar 300) stringAndArray = .ok () after ∧
      after.element (.ref ⟨0⟩) 1 = .ok (.scalar 44) ∧
      after.element (.ref ⟨0⟩) 2 = .ok (.scalar 3) ∧
      after.element (.ref ⟨1⟩) 1 = .ok (.scalar 7) := by
  have there : stringAndArray.HasElement (.ref ⟨0⟩) 1 (.string #[1, 2, 3]) :=
    ⟨rfl, by decide, by decide, by decide⟩
  obtain ⟨_, granted, laws, _⟩ := elements_obey_array_laws stringAndArray (.ref ⟨0⟩) 1 (.scalar 300)
  obtain ⟨after, done⟩ := granted.mpr ⟨_, there, fun _ => rfl⟩
  obtain ⟨stored, others, _⟩ := laws _ after there done
  exact ⟨after, done, stored.trans rfl, (others _ _ (by decide)).trans rfl,
    (others _ _ (by decide)).trans rfl⟩

end Heap

end BytecodeMachine
