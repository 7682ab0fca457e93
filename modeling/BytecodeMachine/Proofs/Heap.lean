import BytecodeMachine.Heap.Access
import BytecodeMachine.Proofs.Fault
/-!
# What the heap holds

References are positions in the heap, so a word is sound for a number of objects if the
references in it are below that number. Objects are never removed: a word that is sound
for a heap stays sound as the heap grows.

`Heap.Holds` is about the words that are kept in objects. Reading gives words that are
held, or bytes; making and changing objects puts in the words that are given. None of it
faults for a reference that is below the number of objects by leading nowhere.
-/
namespace BytecodeMachine

/-- Where a place may be: raw fields are those of an object that is there, and never the first
one, which is the entry of a closure. -/
def Slot.Sound (objects globals : Nat) : Slot → Prop
  | .global index => index < globals
  | .stack _ => True
  | .field object index => object.index < objects ∧ 1 ≤ index

/-- A word with a number that is admitted, a reference to an object that is there, or a place
that may be. -/
def Value.Sound (number : Int32 → Prop) (objects globals : Nat) : Value → Prop
  | .scalar k => number k
  | .ref object => object.index < objects
  | .slot place => place.Sound objects globals

/-- A word that is sound for some objects is sound for more of them. Only references and places of
fields count the objects at all. -/
theorem Value.Sound.mono {number : Int32 → Prop} {objects more globals : Nat} {value : Value}
    (sound : value.Sound number objects globals) (grown : objects ≤ more) :
    value.Sound number more globals := by
  cases value with
  | scalar k => exact sound
  | ref object => exact Nat.lt_of_lt_of_le sound grown
  | slot place =>
    cases place with
    | global index => exact sound
    | stack index => trivial
    | field object index => exact ⟨Nat.lt_of_lt_of_le sound.1 grown, sound.2⟩

namespace Object

/-- The words that an object keeps. A string keeps bytes, and the entry of a closure is no word. -/
def words : Object → Array Value
  | .string _ => #[]
  | .array elements => elements
  | .aggregate _ fields => fields
  | .closure _ captured => captured

variable {object : Object} {index : Nat} {value : Value}

/-- What is read from an object is one of its words or one of its bytes. Strings have bytes only.
Of a closure the position zero is not a word, and the others are its captures. -/
theorem word?_eq_some (found : object.word? index = some value) :
    value ∈ object.words ∨ ∃ b, value = .ofByte b := by
  cases object with
  | string bytes =>
    obtain ⟨b, _, rfl⟩ := Option.map_eq_some_iff.mp found
    exact .inr ⟨b, rfl⟩
  | array elements => exact .inl (Array.mem_of_getElem? found)
  | aggregate tag fields => exact .inl (Array.mem_of_getElem? found)
  | closure entry captured =>
    cases index with
    | zero => cases found
    | succ index => exact .inl (Array.mem_of_getElem? found)

/-- Replacing a word puts in the new one and no other. Strings take a byte and keep having no
words, and a replacement outside an object changes nothing. -/
theorem mem_words_put {word : Value} (member : word ∈ (object.put index value).words) :
    word ∈ object.words ∨ word = value := by
  cases object with
  | string bytes => cases value <;> exact .inl member
  | array elements => exact Array.mem_or_eq_of_mem_setIfInBounds member
  | aggregate tag fields => exact Array.mem_or_eq_of_mem_setIfInBounds member
  | closure entry captured =>
    cases index with
    | zero => exact .inl member
    | succ index => exact Array.mem_or_eq_of_mem_setIfInBounds member

/-- Whether an object takes a word is decided by its kind and by the word. No reference is
followed, so none is found to dangle. -/
theorem accepts_gives (object : Object) (value : Value) :
    (object.accepts value).Gives fun _ => True := by
  have number := value.expectScalar_gives
  cases object with
  | string bytes =>
    simp only [accepts]
    split
    · exact Answer.gives_ok trivial
    · next failed => exact number.handOn failed
  | _ => exact Answer.gives_ok trivial

/-- An index is compared with the length of the object, which involves no reference. -/
theorem elementIndex_gives (object : Object) (index : Int32) :
    (object.elementIndex index).Gives fun _ => True := by
  unfold elementIndex
  split
  · exact Answer.gives_ok trivial
  · exact Answer.gives_error rfl

/-- The same holds of the position in an object that is indexed, which is the index less the check
of the kind. -/
theorem elementPosition_gives (object : Object) (index : Int32) :
    (object.elementPosition index).Gives fun _ => True := by
  have checked := object.elementIndex_gives index
  unfold elementPosition
  split
  · next failed => exact checked.handOn failed
  · split
    · exact Answer.gives_error rfl
    · exact Answer.gives_ok trivial

/-- A raw field is checked against the object that has been found already. -/
theorem checkField_gives (reference : Ref) (index : Nat) (value : Value) (object : Object) :
    (object.checkField reference index value).Gives fun _ => True := by
  unfold checkField
  split
  · exact Answer.gives_error rfl
  · split
    · exact Answer.gives_error rfl
    · exact object.accepts_gives value

end Object

namespace Heap

variable {heap : Heap} {holds : Value → Prop} {object : Ref} {index : Nat} {value : Value}

/-- Every word that an object of the heap keeps is one of these. -/
def Holds (holds : Value → Prop) (heap : Heap) : Prop :=
  ∀ object ∈ heap.objects, ∀ word ∈ object.words, holds word

/-- What is held stays held by a weaker condition. -/
theorem Holds.mono {weaker : Value → Prop} (held : heap.Holds holds)
    (implies : ∀ word, holds word → weaker word) : heap.Holds weaker :=
  fun object member word kept => implies word (held object member word kept)

/-- A word that leads to an object is a reference, and the object is the one that the heap has
under its number. Numbers and places lead nowhere. -/
theorem lookup?_eq_some_iff {found : Object} :
    heap.lookup? value = some found ↔
      ∃ reference, value = .ref reference ∧ heap.objects[reference.index]? = some found := by
  constructor
  · intro leads
    cases value with
    | ref reference => exact ⟨reference, rfl, leads⟩
    | scalar number => cases leads
    | slot place => cases leads
  · rintro ⟨reference, rfl, leads⟩
    exact leads

/-- An object that a word leads to is one of the heap. -/
theorem mem_of_lookup? {found : Object} (leads : heap.lookup? value = some found) :
    found ∈ heap.objects := by
  obtain ⟨reference, _, there⟩ := lookup?_eq_some_iff.mp leads
  exact Array.mem_of_getElem? there

/-- Only references lead anywhere. -/
theorem lookup?_of_not_ref (direct : value.isRef = false) : heap.lookup? value = none := by
  cases value with
  | ref reference => cases direct
  | _ => rfl

/-- A reference below the number of objects leads to one of them. -/
theorem get_gives (inside : object.index < heap.size) :
    (heap.get object).Gives fun found => found ∈ heap.objects := by
  unfold get
  rw [Array.getElem?_eq_getElem inside]
  exact Answer.gives_ok (Array.getElem_mem inside)

/-- A reference below the number of objects resolves to one of them. Anything else that goes wrong
is that the word is no reference. -/
theorem resolve_gives (inside : ∀ object, value = .ref object → object.index < heap.size) :
    (heap.resolve value).Gives fun found => found ∈ heap.objects := by
  have reference := value.expectRef_gives
  unfold resolve
  split
  · next object isRef =>
    rw [isRef] at reference
    exact get_gives (inside object reference)
  · next failed => exact reference.handOn failed

/-- A raw field that is not the entry of a closure holds a word of the object or a byte. The object
is there, so looking for it gives it, and a field beyond its words is refused for its number. -/
theorem field_gives (held : heap.Holds holds) (bytes : ∀ b, holds (.ofByte b))
    (inside : object.index < heap.size) (behind : 1 ≤ index) :
    (heap.field object index).Gives holds := by
  have found := get_gives inside
  unfold field
  split
  · next failed => exact found.handOn failed
  · next got =>
    rw [got] at found
    split
    · omega
    · split
      · next word isWord =>
        rcases Object.word?_eq_some isWord with member | ⟨b, rfl⟩
        · exact Answer.gives_ok (held _ found _ member)
        · exact Answer.gives_ok (bytes b)
      · exact Answer.gives_error rfl

/-- An element is a word that the container holds, or a byte of it, or the zero that stands for a
missing one. All three meet the condition, which therefore asks for bytes and zero besides. -/
theorem element_gives {container : Value} {index : Int32} (held : heap.Holds holds)
    (bytes : ∀ b, holds (.ofByte b)) (zero : holds .zero)
    (inside : ∀ object, container = .ref object → object.index < heap.size) :
    (heap.element container index).Gives holds := by
  have resolved := resolve_gives inside
  unfold element
  split
  · next failed => exact resolved.handOn failed
  · next found got =>
    rw [got] at resolved
    have checked := found.elementPosition_gives index
    split
    · next failed => exact checked.handOn failed
    · next position _ =>
      refine Answer.gives_ok ?_
      cases isWord : found.word? position with
      | none => exact zero
      | some word =>
        rcases Object.word?_eq_some isWord with member | ⟨b, rfl⟩
        · exact held _ resolved _ member
        · exact bytes b

/-- The entry of a closure is a number and not a word, so nothing is known of it but that looking
for it follows no dangling reference. -/
theorem entry_gives (inside : object.index < heap.size) :
    (heap.entry object).Gives fun _ => True := by
  have found := get_gives inside
  unfold entry
  split
  · next failed => exact found.handOn failed
  · exact Answer.gives_ok trivial
  · exact Answer.gives_error rfl

/-- The length of what a word leads to, where the word leads to something. -/
theorem length_gives (inside : ∀ object, value = .ref object → object.index < heap.size) :
    (heap.length value).Gives fun _ => True := by
  have resolved := resolve_gives inside
  unfold length
  split
  · next failed => exact resolved.handOn failed
  · exact (int32OfNat_gives _).mono fun _ _ => trivial

/-- Writing to an object leaves the number of objects as it is. -/
theorem size_put (object : Ref) (index : Nat) (value : Value) (heap : Heap) :
    (heap.put object index value).size = heap.size := Array.size_modify

/-- Putting in a word that meets the condition keeps it held. An object of the new heap is an old
one or an old one with that word in it. -/
theorem Holds.put (held : heap.Holds holds) (given : holds value) (object : Ref) (index : Nat) :
    (heap.put object index value).Holds holds := by
  intro changed member word kept
  obtain ⟨position, inside, rfl⟩ := Array.mem_iff_getElem.mp member
  simp only [Heap.put, Array.getElem_modify] at kept
  split at kept
  · rcases Object.mem_words_put kept with before | rfl
    · exact held _ (Array.getElem_mem _) word before
    · exact given
  · exact held _ (Array.getElem_mem _) word kept

/-- A new object whose words meet the condition may be added. -/
theorem Holds.push {made : Object} (held : heap.Holds holds)
    (given : ∀ word ∈ made.words, holds word) : Heap.Holds holds ⟨heap.objects.push made⟩ := by
  intro object member word kept
  rcases Array.mem_push.mp member with before | rfl
  · exact held object before word kept
  · exact given word kept

open BytecodeMachine.Action

/-- An allocation adds one object behind the others and answers its number. If there is no number
left for it the heap stays as it is, and the fault is not that of a reference leading nowhere. -/
theorem alloc_ends (made : Object) (heap : Heap) :
    (alloc made).Ends heap
      (fun object after => object.index = heap.size ∧ after = ⟨heap.objects.push made⟩)
      (fun cause after => after = heap ∧ cause.isDangling = false) := by
  by_cases room : heap.size < 4294967296 <;> simp [Ends, alloc, room, Fault.isDangling]

/-- Finding the field to be written is a look at an object that is there. -/
theorem fieldPlace_gives (inside : object.index < heap.size) :
    (heap.fieldPlace object index value).Gives fun _ => True := by
  have found := get_gives inside
  unfold fieldPlace
  split
  · next failed => exact found.handOn failed
  · exact Object.checkField_gives ..

/-- So is finding the element: a word that is no reference is refused first, and the object of a
reference is there. -/
theorem elementPlace_gives {container : Value} {index : Int32}
    (inside : ∀ object, container = .ref object → object.index < heap.size) :
    (heap.elementPlace container index value).Gives fun _ => True :=
  container.expectRef_gives.bind fun object isRef =>
    (get_gives (inside object isRef)).bind fun found _ =>
      (found.elementPosition_gives index).bind fun _ _ =>
        (found.accepts_gives value).bind fun _ _ => Answer.gives_ok trivial

/-- A field that is replaced by a word that may be held leaves a heap that holds such words. Where
it is refused, the heap is the old one, and the object is there, so that is not the reason. -/
theorem setField_ends (held : heap.Holds holds) (given : holds value)
    (inside : object.index < heap.size) :
    (setField object index value).Ends heap
      (fun _ after => after.size = heap.size ∧ after.Holds holds)
      (fun cause after => after = heap ∧ cause.isDangling = false) := by
  have place : (heap.fieldPlace object index value).Gives fun _ => True := fieldPlace_gives inside
  unfold Ends setField
  cases found : heap.fieldPlace object index value with
  | ok _ => exact ⟨size_put .., held.put given _ _⟩
  | error cause =>
    rw [found] at place
    exact ⟨rfl, place⟩

/-- Writing an element keeps the number of objects and, if the word written meets the condition,
what is held. A refusal has written nothing. -/
theorem setElement_ends {container : Value} {index : Int32} (held : heap.Holds holds)
    (given : holds value)
    (inside : ∀ object, container = .ref object → object.index < heap.size) :
    (setElement container index value).Ends heap
      (fun _ after => after.size = heap.size ∧ after.Holds holds)
      (fun cause after => after = heap ∧ cause.isDangling = false) := by
  have place : (heap.elementPlace container index value).Gives fun _ => True :=
    elementPlace_gives inside
  unfold Ends setElement
  cases found : heap.elementPlace container index value with
  | ok position => exact ⟨size_put .., held.put given _ _⟩
  | error cause =>
    rw [found] at place
    exact ⟨rfl, place⟩

end Heap

end BytecodeMachine
