import BytecodeMachine.Proofs.Heap.Elements
/-!
# Fields beside elements

The words of an object are reached in two ways. An element is asked for by a number, which is
checked against the length first; a field is looked for where it should be. For strings, arrays
and aggregates both ways are one: they read the same words, are granted for the same values, and
leave the same heap.

A closure has fields only. Its captures are the fields from one on. Its entry is read as field
zero, but can be set neither as a field nor as an element, so that no request of either kind
changes it.
-/
namespace BytecodeMachine

open BytecodeMachine.Action

namespace Heap

variable {heap after : Heap} {object : Ref} {position : Nat} {value : Value}

section Elements

variable (elements : ∀ found, heap.objects[object.index]? = some found → found.kind ≠ .closure)
  (small : position < 2147483648)
include elements small

/-- Where there is no closure, elements and fields are the same words. Both accesses are granted
exactly if the object has a word there, and the conditions are compared one by one. -/
theorem field_eq_ok_iff_element :
    heap.field object position = .ok value ↔
      heap.element (.ref object) (Int32.ofNat position) = .ok value := by
  rw [field_eq_ok_iff, element_eq_ok_iff, toNat_ofNat small]
  constructor
  · rintro (isWord | ⟨_, entry, captured, _, leads, _⟩)
    · obtain ⟨found, leads, isWord⟩ := Option.bind_eq_some_iff.mp isWord
      exact ⟨object, found, rfl, leads, elements found leads, ofNat_nonneg small, isWord⟩
    · exact absurd rfl (elements _ leads)
  · rintro ⟨_, found, ⟨⟩, leads, _, _, isWord⟩
    exact .inl (Option.bind_eq_some_iff.mpr ⟨found, leads, isWord⟩)

/-- And they are replaced by the same words. The index is a small number, so it is not negative,
and to lie inside the object is to have a word there. -/
theorem setField_eq_ok_iff_setElement :
    setField object position value heap = .ok () after ↔
      setElement (.ref object) (Int32.ofNat position) value heap = .ok () after := by
  simp only [setField_eq_ok_iff, setElement_eq_ok_iff, hasElement_iff, toNat_ofNat small]
  constructor
  · rintro ⟨found, leads, there, takes, rfl⟩
    have inside := (Object.isSome_word?_iff (elements found leads)).mp there
    exact ⟨found, object, ⟨object, rfl, leads, elements found leads, ofNat_nonneg small, inside⟩,
      takes, rfl, rfl⟩
  · rintro ⟨found, _, ⟨_, ⟨⟩, leads, apart, _, inside⟩, takes, ⟨⟩, rfl⟩
    exact ⟨found, leads, (Object.isSome_word?_iff apart).mpr inside, takes, rfl⟩

end Elements

section Closures

variable {entry : Nat} {captured : Array Value}
  (leads : heap.objects[object.index]? = some (.closure entry captured))
include leads

/-- A closure is never indexed, so reading an element of one is a fault whatever the index. -/
theorem element_of_closure (index : Int32) :
    ∃ cause, heap.element (.ref object) index = .error cause := by
  rw [Answer.exists_error_iff]
  rintro ⟨word, answered⟩
  obtain ⟨_, found, ⟨⟩, leads', elements, _⟩ := element_eq_ok_iff.mp answered
  obtain rfl : .closure entry captured = found := Option.some.inj (leads.symm.trans leads')
  exact elements rfl

/-- Writing an element of a closure is a fault as well, and the heap stays as it is. -/
theorem setElement_of_closure (index : Int32) (value : Value) :
    ∃ cause, setElement (.ref object) index value heap = .error cause heap := by
  refine (setElement_spares _ _ _).exists_error fun _ after done => ?_
  obtain ⟨found, _, there, _⟩ := setElement_eq_ok_iff.mp done
  obtain ⟨_, ⟨⟩, leads', elements, _⟩ := hasElement_iff.mp there
  obtain rfl : .closure entry captured = found := Option.some.inj (leads.symm.trans leads')
  exact elements rfl

/-- The fields behind the entry are the captures. -/
theorem field_capture_eq_ok_iff :
    heap.field object (position + 1) = .ok value ↔ captured[position]? = some value := by
  rw [field_succ_eq_ok_iff, word?_capture leads]

/-- A capture is replaced if there is one, and nothing else is. The entry has the position zero and
no capture has it, so it is out of reach from here. -/
theorem setField_capture_eq_ok_iff :
    setField object (position + 1) value heap = .ok () after ↔
      position < captured.size ∧
        after = ⟨heap.objects.setIfInBounds object.index
          (.closure entry (captured.setIfInBounds position value))⟩ := by
  constructor
  · intro done
    obtain ⟨found, leads', there, _⟩ := setField_eq_ok_iff.mp done
    obtain rfl : .closure entry captured = found := Option.some.inj (leads.symm.trans leads')
    have inside : position < captured.size := by simpa [Object.word?] using there
    rw [setField_capture leads inside] at done
    cases done
    exact ⟨inside, rfl⟩
  · rintro ⟨inside, rfl⟩
    exact setField_capture leads inside value

end Closures

/-- The entry of a closure is part of its shape. So is what the fault says where there is no
closure, and therefore the whole answer depends on the shape alone. -/
theorem entry_congr (same : after.shape? object = heap.shape? object) :
    after.entry object = heap.entry object := by
  have known (heap : Heap) :
      heap.entry object =
        match heap.shape? object with
        | none => .error (.heap (.dangling object))
        | some shape => shape.entry?.elim (.error (.heap (.expectedClosure shape.kind))) .ok := by
    unfold Heap.entry Heap.get shape?
    cases heap.objects[object.index]? with
    | none => rfl
    | some found => cases found <;> rfl
  rw [known, known, same]

/-- A store that puts in a word, or is refused and changes nothing, keeps every entry. Putting in a
word keeps the shapes of all objects, and the entry is read off the shape. -/
theorem keeps_entry_of_put {store : Action Heap Unit} (spares : Spares id store)
    (puts : ∀ heap after, store heap = .ok () after →
      ∃ other position value, after = heap.put other position value) (object : Ref) :
    Keeps (entry object) store := by
  intro heap
  unfold Ends
  cases ended : store heap with
  | ok a after =>
    obtain ⟨_, _, _, rfl⟩ := puts heap after ended
    exact entry_congr (shape?_put ..)
  | error cause after => exact congrArg (entry object) (spares.of_error ended)

/-- Raw fields begin behind the entry, so writing one keeps the entry of every closure. -/
theorem keeps_entry_setField (object other : Ref) (position : Nat) (value : Value) :
    Keeps (entry object) (setField other position value) := by
  refine keeps_entry_of_put (setField_spares _ _ _) (fun heap after done => ?_) object
  obtain ⟨_, replaced⟩ := setField_eq_ok done
  exact ⟨_, _, _, replaced⟩

/-- Elements are those of objects other than closures, so writing one keeps the entries too. -/
theorem keeps_entry_setElement (object : Ref) (container : Value) (index : Int32) (value : Value) :
    Keeps (entry object) (setElement container index value) := by
  refine keeps_entry_of_put (setElement_spares _ _ _) (fun heap after done => ?_) object
  obtain ⟨_, _, _, _, replaced⟩ := setElement_eq_ok done
  exact ⟨_, _, _, replaced⟩

/-- Raw fields agree with checked elements. Of a reference that does not lead to a closure, or
leads nowhere, both read the same word at a position or neither does, and both leave the same heap
with the value stored or neither stores it. A closure has no elements; the fields of it from one
on are its captures, read and replaced one by one. A store that is refused changes nothing, and no
store, whatever it is aimed at, changes an entry. -/
theorem fields_agree_with_elements (heap : Heap) (object : Ref) (value : Value) :
    ((∀ found, heap.objects[object.index]? = some found → found.kind ≠ .closure) →
      ∀ position < 2147483648,
        (∀ word, heap.field object position = .ok word ↔
          heap.element (.ref object) (Int32.ofNat position) = .ok word) ∧
        ∀ after, setField object position value heap = .ok () after ↔
          setElement (.ref object) (Int32.ofNat position) value heap = .ok () after) ∧
    (∀ entry captured, heap.objects[object.index]? = some (.closure entry captured) →
      (∀ index, (∃ cause, heap.element (.ref object) index = .error cause) ∧
        ∃ cause, setElement (.ref object) index value heap = .error cause heap) ∧
      ∀ position,
        (∀ word, heap.field object (position + 1) = .ok word ↔ captured[position]? = some word) ∧
        ∀ after, setField object (position + 1) value heap = .ok () after ↔
          position < captured.size ∧
            after = ⟨heap.objects.setIfInBounds object.index
              (.closure entry (captured.setIfInBounds position value))⟩) ∧
    (∀ position cause after,
      setField object position value heap = .error cause after → after = heap) ∧
    (∀ index cause after,
      setElement (.ref object) index value heap = .error cause after → after = heap) ∧
    (∀ other position, Keeps (entry object) (setField other position value)) ∧
    ∀ container index, Keeps (entry object) (setElement container index value) := by
  refine ⟨?_, ?_, ?_, ?_, ?_, ?_⟩
  · intro elements position small
    exact ⟨fun _ => field_eq_ok_iff_element elements small,
      fun _ => setField_eq_ok_iff_setElement elements small⟩
  · intro entry captured leads
    exact ⟨fun index => ⟨element_of_closure leads index, setElement_of_closure leads index value⟩,
      fun position => ⟨fun _ => field_capture_eq_ok_iff leads,
        fun _ => setField_capture_eq_ok_iff leads⟩⟩
  · exact fun _ _ _ => (setField_spares ..).of_error
  · exact fun _ _ _ => (setElement_spares ..).of_error
  · exact fun other position => keeps_entry_setField object other position value
  · exact fun container index => keeps_entry_setElement object container index value

/-- A heap with a string, and a closure that has captured it. -/
def stringAndClosure : Heap := ⟨#[.string #[104, 105], .closure 64 #[.scalar 5, .ref ⟨0⟩]]⟩

/-- The last byte of the string; a reference, which the string does not take; the second capture
of the closure, which is no element; and a reference that leads nowhere. -/
theorem fields_agree_with_elements_stringAndClosure :
    stringAndClosure.field ⟨0⟩ 1 = .ok (.scalar 105) ∧
    (∀ after, setField ⟨0⟩ 1 (.ref ⟨1⟩) stringAndClosure ≠ .ok () after) ∧
    setField ⟨1⟩ 2 (.ref ⟨1⟩) stringAndClosure =
      .ok () ⟨#[.string #[104, 105], .closure 64 #[.scalar 5, .ref ⟨1⟩]]⟩ ∧
    (∃ cause, setElement (.ref ⟨1⟩) 1 (.ref ⟨1⟩) stringAndClosure =
      .error cause stringAndClosure) ∧
    ∀ word, stringAndClosure.field ⟨2⟩ 0 ≠ .ok word := by
  obtain ⟨agree, _⟩ := fields_agree_with_elements stringAndClosure ⟨0⟩ (.ref ⟨1⟩)
  obtain ⟨_, closed, _⟩ := fields_agree_with_elements stringAndClosure ⟨1⟩ (.ref ⟨1⟩)
  obtain ⟨nowhere, _⟩ := fields_agree_with_elements stringAndClosure ⟨2⟩ (.ref ⟨1⟩)
  obtain ⟨reads, stores⟩ := agree (by rintro _ ⟨⟩; decide) 1 (by decide)
  obtain ⟨elements, captures⟩ := closed 64 #[.scalar 5, .ref ⟨0⟩] rfl
  obtain ⟨misses, _⟩ := nowhere (by rintro _ ⟨⟩) 0 (by decide)
  refine ⟨(reads _).mpr rfl, fun after done => ?_, ?_, (elements 1).2, fun word read => ?_⟩
  · cases (stores after).mp done
  · exact ((captures 1).2 _).mpr ⟨by decide, rfl⟩
  · cases (misses word).mp read

end Heap

end BytecodeMachine
