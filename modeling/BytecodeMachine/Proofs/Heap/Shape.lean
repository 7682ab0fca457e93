import BytecodeMachine.Heap.Access
import BytecodeMachine.Proofs.Action
/-!
# What stays the same about objects

The shape of an object is what pattern matching and calls go by: its kind, its length, the tag
of an aggregate and the entry of a closure. Replacing a word of an object changes that word
and neither its shape nor any other word.

A request to a heap that is refused leaves the heap as it was. One that is granted replaces
one word, and the object has a word there.
-/
namespace BytecodeMachine

/-- All of an object but its words and bytes. -/
structure Shape where
  kind : ObjectKind
  length : Nat
  tag? : Option Int32
  entry? : Option Nat
deriving DecidableEq

namespace Object

variable {object : Object} {position other : Nat} {value : Value}

/-- The tag of an aggregate. -/
def tag? : Object → Option Int32
  | .aggregate tag _ => some tag
  | _ => none

/-- The entry of a closure. -/
def entry? : Object → Option Nat
  | .closure entry _ => some entry
  | _ => none

def shape (object : Object) : Shape := ⟨object.kind, object.length, object.tag?, object.entry?⟩

/-- Putting a word into an object changes none of what the object is: its kind, length, tag and
entry stay, whatever the word and the position. -/
@[simp]
theorem shape_put (position : Nat) (value : Value) (object : Object) :
    (object.put position value).shape = object.shape := by
  cases object with
  | string bytes => cases value <;> simp [put, shape, kind, length, tag?, entry?]
  | array elements => simp [put, shape, kind, length, tag?, entry?]
  | aggregate tag fields => simp [put, shape, kind, length, tag?, entry?]
  | closure entry captured => cases position <;> simp [put, shape, kind, length, tag?, entry?]

/-- The other words of the object stay as well. The positions of captures are counted behind the
entry, so for a closure both positions are taken down by one before they are compared. -/
theorem word?_put_of_ne (ne : position ≠ other) (value : Value) (object : Object) :
    (object.put position value).word? other = object.word? other := by
  cases object with
  | string bytes =>
    cases value with
    | scalar number => simp only [put, word?, Array.getElem?_setIfInBounds_ne ne]
    | _ => rfl
  | array elements => exact Array.getElem?_setIfInBounds_ne ne
  | aggregate tag fields => exact Array.getElem?_setIfInBounds_ne ne
  | closure entry captured =>
    cases position with
    | zero => rfl
    | succ position =>
      cases other with
      | zero => rfl
      | succ other =>
        have apart : position ≠ other := by omega
        exact Array.getElem?_setIfInBounds_ne apart

/-- A field that can take a value has a word. It is asked for before the value is looked at, and
the entry of a closure, which cannot be set, is refused before that. -/
theorem checkField_eq_ok {reference : Ref} {a : Unit}
    (granted : object.checkField reference position value = .ok a) :
    (object.word? position).isSome := by
  unfold checkField at granted
  split at granted
  · cases granted
  · split at granted
    · cases granted
    · next there => exact Option.isSome_iff_ne_none.mpr fun none => there (by simp [none])

/-- An element has a word, and its position is the number that was asked for. The index is below
the length, which is the number of words for every object that may be indexed. -/
theorem elementPosition_eq_ok {index : Int32}
    (granted : object.elementPosition index = .ok position) :
    0 ≤ index ∧ position = index.toInt.toNat ∧ (object.word? position).isSome := by
  unfold elementPosition at granted
  split at granted
  · cases granted
  · next found checked =>
    unfold elementIndex at checked
    split at checked
    · next inside =>
      cases checked
      split at granted
      · cases granted
      · next notClosure =>
        cases granted
        refine ⟨inside.1, rfl, ?_⟩
        have below := inside.2
        cases object with
        | string bytes => simpa [word?, length] using below
        | array elements => simpa [word?, length] using below
        | aggregate tag fields => simpa [word?, length] using below
        | closure entry captured => exact absurd rfl notClosure
    · cases checked

end Object

namespace Heap

variable {heap after : Heap} {object : Ref} {position : Nat} {value : Value}

/-- The word at a position of the object that a reference leads to. -/
def word? (heap : Heap) (object : Ref) (position : Nat) : Option Value :=
  heap.objects[object.index]?.bind fun found => found.word? position

/-- The shape of the object that a reference leads to. -/
def shape? (heap : Heap) (object : Ref) : Option Shape :=
  heap.objects[object.index]?.map Object.shape

/-- Writing to an object changes the object at that index and at no other. -/
theorem getElem?_put (object : Ref) (position : Nat) (value : Value) (heap : Heap)
    (index : Nat) :
    (heap.put object position value).objects[index]? =
      if object.index = index then heap.objects[index]?.map (Object.put position value)
      else heap.objects[index]? := Array.getElem?_modify

/-- No replacement changes a shape. -/
theorem shape?_put (object : Ref) (position : Nat) (value : Value) (heap : Heap)
    (other : Ref) : (heap.put object position value).shape? other = heap.shape? other := by
  simp only [shape?, getElem?_put]
  split
  · cases heap.objects[other.index]? <;> simp
  · rfl

/-- A replacement changes no word but one. In another object no word is replaced at all, and in the
same object only the one at this position. -/
theorem word?_put_of_ne {other : Ref} {index : Nat}
    (apart : ¬ (object = other ∧ position = index)) (value : Value) (heap : Heap) :
    (heap.put object position value).word? other index = heap.word? other index := by
  simp only [word?, getElem?_put]
  split
  · next same =>
    obtain ⟨object⟩ := object
    obtain ⟨other⟩ := other
    obtain rfl : object = other := same
    have ne : position ≠ index := fun same => apart ⟨rfl, same⟩
    cases heap.objects[object]? with
    | none => rfl
    | some found => exact Object.word?_put_of_ne ne value found
  · rfl

/-- An object is found at its own index, if it is there. -/
theorem get_eq_ok_iff {found : Object} :
    heap.get object = .ok found ↔ heap.objects[object.index]? = some found := by
  unfold get
  cases heap.objects[object.index]? <;> simp

/-- A field that has been set had a word before, and is set by putting in the new one. The place is
looked for before anything is written, which is refused if there is none. -/
theorem setField_eq_ok {a : Unit} (done : setField object position value heap = .ok a after) :
    (heap.word? object position).isSome ∧ after = heap.put object position value := by
  unfold setField at done
  split at done
  · next granted =>
    cases done
    refine ⟨?_, rfl⟩
    unfold fieldPlace at granted
    split at granted
    · cases granted
    · next found got =>
      rw [get_eq_ok_iff] at got
      rw [word?, got]
      exact Object.checkField_eq_ok granted
  · cases done

/-- An element that has been set had a word before, where the index says. The checks in front of
the write are undone one by one: the reference, the object, the position and the kind of value. -/
theorem setElement_eq_ok {container : Value} {index : Int32} {a : Unit}
    (done : setElement container index value heap = .ok a after) :
    ∃ object, container = .ref object ∧ 0 ≤ index ∧
      (heap.word? object index.toInt.toNat).isSome ∧
      after = heap.put object index.toInt.toNat value := by
  unfold setElement at done
  split at done
  · next object position granted =>
    cases done
    simp only [elementPlace, Answer.bind_eq_ok_iff] at granted
    obtain ⟨reference, isRef, found, got, inside, placed, _, _, ⟨⟩⟩ := granted
    obtain ⟨positive, rfl, there⟩ := Object.elementPosition_eq_ok placed
    have leads : container = .ref object := by
      cases container with
      | ref other => exact congrArg Value.ref (Except.ok.inj isRef)
      | _ => cases isRef
    rw [get_eq_ok_iff] at got
    refine ⟨object, leads, positive, ?_, rfl⟩
    rwa [word?, got]
  · cases done

open BytecodeMachine.Action

/-- A field that is not set leaves the heap as it was. -/
theorem setField_spares (object : Ref) (position : Nat) (value : Value) :
    Spares id (setField object position value) := by
  intro heap
  unfold Ends setField
  cases heap.fieldPlace object position value with
  | ok a => trivial
  | error cause => rfl

/-- Everything is checked before the one write, so a refused one leaves the heap alone. -/
theorem setElement_spares (container : Value) (index : Int32) (value : Value) :
    Spares id (setElement container index value) := by
  intro heap
  unfold Ends setElement
  cases heap.elementPlace container index value with
  | ok place => trivial
  | error cause => rfl

end Heap

end BytecodeMachine
