import BytecodeMachine.Proofs.Heap.Elements
import BytecodeMachine.Proofs.Machine.Footprint
import BytecodeMachine.Proofs.Machine.Progress
import BytecodeMachine.Proofs.Machine.Variables
/-!
# Variables of a frame

No two variables have the same place, whatever their storages and indexes are, and none is in
the linkage of the frame: locals end below it and arguments start behind it. So a store into one
variable is not seen in another one, and the function goes on to find its way back.

There is one way in which variables depend on each other. Captured variables are found behind
the last argument, and a program that stores something else there gets other captured variables,
or none. What is stored into a variable is loaded from it again, except that captured variables
that happen to be bytes of a string keep bytes.
-/
namespace BytecodeMachine.Machine

open BytecodeMachine.Action

section

variable {σ : Type} {m : Machine σ} {a b name : Variable} {place : Slot}

/-- The variable is the last argument, behind which captured variables are found. -/
def IsLastArgument (m : Machine σ) (name : Variable) : Prop :=
  name.storage = .arguments ∧ m.argumentCount = .ok (name.index.toInt.toNat + 1)

/-- Two variables never share a place. The storages have places of different kinds, except that
locals and arguments are both on the stack, on different sides of the frame pointer. -/
theorem place_injective (placed : m.place a = .ok place) (placed' : m.place b = .ok place) :
    a = b := by
  obtain ⟨storage, index⟩ := a
  obtain ⟨storage', index'⟩ := b
  obtain ⟨positive, found⟩ := place_eq_ok_iff.mp placed
  obtain ⟨positive', found'⟩ := place_eq_ok_iff.mp placed'
  dsimp only at positive positive' found found'
  have same : storage = storage' ∧ index.toInt.toNat = index'.toInt.toNat := by
    cases storage with
    | globals =>
      obtain ⟨_, rfl⟩ := found
      cases storage' with
      | globals => exact ⟨rfl, Slot.global.inj found'.2⟩
      | locals => cases found'.2
      | arguments => cases found'
      | captures =>
        obtain ⟨_, _, ⟨⟩⟩ := found'
    | locals =>
      obtain ⟨above, rfl⟩ := found
      cases storage' with
      | globals => cases found'.2
      | locals =>
        have level := Slot.stack.inj found'.2
        exact ⟨rfl, by omega⟩
      | arguments =>
        have level := Slot.stack.inj found'
        omega
      | captures =>
        obtain ⟨_, _, ⟨⟩⟩ := found'
    | arguments =>
      subst found
      cases storage' with
      | globals => cases found'.2
      | locals =>
        have level := Slot.stack.inj found'.2
        omega
      | arguments =>
        have level := Slot.stack.inj found'
        exact ⟨rfl, by omega⟩
      | captures =>
        obtain ⟨_, _, ⟨⟩⟩ := found'
    | captures =>
      obtain ⟨object, runs, rfl⟩ := found
      cases storage' with
      | globals => cases found'.2
      | locals => cases found'.2
      | arguments => cases found'
      | captures =>
        obtain ⟨other, _, same⟩ := found'
        exact ⟨rfl, Nat.succ.inj (Slot.field.inj same).2⟩
  rw [same.1, ← ofNat_toNat positive, same.2, ofNat_toNat positive']

/-- Locals are above the frame pointer, arguments are behind the linkage, and captured variables
are fields, but not the first one, of what the last argument leads to. -/
theorem place_cases (placed : m.place name = .ok place) :
    (∃ index, place = .global index) ∨ (∃ index < m.frame, place = .stack index) ∨
    (name.storage = .arguments ∧ place = .stack (m.frame + 3 + name.index.toInt.toNat)) ∨
    ∃ object position, name.storage = .captures ∧ m.runningClosure = .ok object ∧
      place = .field object (position + 1) := by
  obtain ⟨storage, index⟩ := name
  obtain ⟨_, found⟩ := place_eq_ok_iff.mp placed
  cases storage with
  | globals => exact .inl ⟨_, found.2⟩
  | locals =>
    obtain ⟨inside, same⟩ := found
    exact .inr (.inl ⟨_, Nat.sub_lt (Nat.zero_lt_of_lt inside) (Nat.succ_pos _), same⟩)
  | arguments => exact .inr (.inr (.inl ⟨rfl, found⟩))
  | captures =>
    obtain ⟨object, runs, same⟩ := found
    exact .inr (.inr (.inr ⟨object, _, rfl, runs, same⟩))

/-- No variable is one of the three words of the linkage. Locals are above the frame pointer,
arguments lie behind the linkage, and globals and captures are not on the stack. -/
theorem place_ne_linkage (placed : m.place name = .ok place) {offset : Nat} (linkage : offset < 3) :
    place ≠ .stack (m.frame + offset) := by
  obtain ⟨index, rfl⟩ | ⟨index, above, rfl⟩ | ⟨_, rfl⟩ | ⟨object, position, _, _, rfl⟩ :=
    place_cases placed
  · rintro ⟨⟩
  · intro same
    have there := Slot.stack.inj same
    omega
  · intro same
    have there := Slot.stack.inj same
    omega
  · rintro ⟨⟩

/-- No variable is the entry of a closure. -/
theorem place_ne_entry (placed : m.place name = .ok place) (object : Ref) :
    place ≠ .field object 0 := by
  obtain ⟨index, rfl⟩ | ⟨index, _, rfl⟩ | ⟨_, rfl⟩ | ⟨other, position, _, _, rfl⟩ :=
    place_cases placed <;> rintro ⟨⟩

/-- Fields are captured variables, of the object that the last argument leads to. -/
theorem captures_of_place_field {object : Ref} {position : Nat}
    (placed : m.place name = .ok (.field object position)) :
    name.storage = .captures ∧ m.runningClosure = .ok object := by
  obtain ⟨index, ⟨⟩⟩ | ⟨index, _, ⟨⟩⟩ | ⟨_, ⟨⟩⟩ | ⟨_, _, captured, runs, ⟨⟩⟩ := place_cases placed
  exact ⟨captured, runs⟩

/-- The only variable at the place of the last argument is the last argument. By its place it is an
argument, and the distance from the frame tells which one. -/
theorem isLastArgument_of_place (placed : m.place name = .ok place) {count : Int32}
    (counted : m.stack.get (m.frame + 1) = .ok (.scalar count)) (positive : 0 < count)
    (same : place = .stack (m.frame + 3 + (count.toInt.toNat - 1))) : m.IsLastArgument name := by
  subst same
  obtain ⟨index, ⟨⟩⟩ | ⟨index, above, there⟩ | ⟨argument, there⟩ | ⟨_, _, _, _, ⟨⟩⟩ :=
    place_cases placed
  · have there := Slot.stack.inj there
    omega
  · have last := Slot.stack.inj there
    have nonzero := toNat_ne_zero_iff.mpr positive
    refine ⟨argument, argumentCount_eq_ok_iff.mpr
      ⟨count, counted, Int32.le_of_lt positive, ?_⟩⟩
    omega

end

variable {m n : Machine Workspace} {a b name : Variable} {place other : Slot} {value word : Value}

/-- A variable is stored to by finding its place and writing there. Finding it changes nothing, so
what is written to is the machine as it was. -/
theorem store_eq_ok_iff :
    store name value m = .ok () n ↔
      ∃ place, m.place name = .ok place ∧ writeSlot place value m = .ok () n := by
  simp only [store, bind_eq_ok_iff, observe_eq_ok_iff, during_eq_ok_iff]
  constructor
  · rintro ⟨place, _, ⟨placed, rfl⟩, written⟩
    exact ⟨place, placed, written⟩
  · rintro ⟨place, placed, written⟩
    exact ⟨place, m, ⟨placed, rfl⟩, written⟩

/-- A field behind the first one is a word of the object. -/
theorem readSlot_field_succ_eq_ok_iff {object : Ref} {position : Nat} :
    m.readSlot (.field object (position + 1)) = .ok word ↔
      m.host.heap.word? object (position + 1) = some word :=
  Heap.field_succ_eq_ok_iff

/-! ### What a store does to other variables -/

/-- A word of the stack that has not been written is read as before. -/
theorem Written.get (written : Written place value m n) {index : Nat}
    (apart : place ≠ .stack index) : n.stack.get index = m.stack.get index :=
  Stack.get_congr written.top written.size (written.words index apart)

/-- Another place shows what it has shown. A global, a word of the stack or a field is left alone
by a write that is not to it. -/
theorem Written.readSlot (written : Written place value m n) (apart : place ≠ other)
    (named : ∀ object, other ≠ .field object 0) (read : m.readSlot other = .ok word) :
    n.readSlot other = .ok word := by
  cases other with
  | global index =>
    have same : n.globals[index]? = m.globals[index]? := written.others.globals index apart
    simp only [Machine.readSlot, same]
    exact read
  | stack index => exact (written.get apart).trans read
  | field object position =>
    cases position with
    | zero => exact absurd rfl (named object)
    | succ position =>
      rw [readSlot_field_succ_eq_ok_iff] at read ⊢
      exact (written.others.word object (position + 1) apart).trans read

/-- Writing to a place does not move the frame pointer, as it is out of reach of a store. -/
theorem writeSlot_frame (done : writeSlot place value m = .ok () n) : n.frame = m.frame := by
  have reach : OutOfReach .storeThrough fun m : Machine Workspace => (m.frame, m.depth) :=
    running_outOfReach rfl
  exact congrArg Prod.fst ((reach.writeSlot rfl place value).of_ok done)

/-- Captured variables are looked for in the same object unless the last argument is stored into.
The search reads two words, the count in the linkage and the last argument, and neither is the
place. -/
theorem Written.runningClosure (written : Written place value m n) (frame : n.frame = m.frame)
    (placed : m.place a = .ok place) (notLast : ¬ m.IsLastArgument a) {object : Ref}
    (runs : m.runningClosure = .ok object) : n.runningClosure = .ok object := by
  obtain ⟨count, counted, positive, last⟩ := runningClosure_eq_ok_iff.mp runs
  have notCount : place ≠ .stack (m.frame + 1) := place_ne_linkage placed (by decide)
  have notThere : place ≠ .stack (m.frame + 3 + (count.toInt.toNat - 1)) :=
    fun same => notLast (isLastArgument_of_place placed counted positive same)
  refine runningClosure_eq_ok_iff.mpr ⟨count, ?_, positive, ?_⟩
  · rw [frame, written.get notCount]
    exact counted
  · rw [frame, written.get notThere]
    exact last

/-- So a variable has the place that it had. -/
theorem Written.placed (written : Written place value m n) (frame : n.frame = m.frame)
    (placed : m.place a = .ok place)
    (notLast : name.storage = .captures → ¬ m.IsLastArgument a)
    (placed' : m.place name = .ok other) : n.place name = .ok other :=
  place_of_same frame written.others.globals_size
    (fun _ captured runs => written.runningClosure frame placed (notLast captured) runs) placed'

/-! ### What a store does to its own variable -/

/-- What is read back of a value that has been put into a place: if that is a byte of a string, the
low byte of a number. -/
def readBack (m : Machine Workspace) (place : Slot) (value : Value) : Value :=
  match place with
  | .field object _ =>
    match m.host.heap.objects[object.index]? with
    | some found => found.readBack value
    | none => value
  | _ => value

/-- What has been written to a place is read back from it. The entry of a closure is no word, so
the raw field before the captures is left out. -/
theorem readSlot_of_writeSlot (done : writeSlot place value m = .ok () n)
    (named : ∀ object, place ≠ .field object 0) :
    n.readSlot place = .ok (m.readBack place value) := by
  have written := writeSlot_written done
  cases place with
  | global index =>
    obtain ⟨stack, globals, host, frame, next, line, depth⟩ := m
    simp only [writeSlot, writeGlobal] at done
    split at done
    · next inside =>
      cases done
      simp only [readSlot, Array.getElem?_setIfInBounds_self_of_lt inside, readBack]
    · cases done
  | stack index =>
    obtain ⟨live, _⟩ := written.there
    exact Stack.get_eq_ok_iff.mpr ⟨written.top ▸ live, written.stored index rfl⟩
  | field object position =>
    cases position with
    | zero => exact absurd rfl (named object)
    | succ position =>
      obtain ⟨host, asked, rfl⟩ := onHost_eq_ok_iff.mp done
      obtain ⟨heap, set, rfl⟩ := onHeap_eq_ok_iff.mp asked
      obtain ⟨found, leads, there, takes, rfl⟩ := Heap.setField_eq_ok_iff.mp set
      rw [readSlot_field_succ_eq_ok_iff, readBack, leads]
      exact Heap.word?_put_self leads takes there

/-- A captured variable that is a byte of a string, since the last argument leads to one. -/
def IsByte (m : Machine Workspace) (name : Variable) : Prop :=
  name.storage = .captures ∧ ∃ object bytes, m.runningClosure = .ok object ∧
    m.host.heap.objects[object.index]? = some (.string bytes)

/-- Of a variable that is not a byte of a string the whole value is read back. Only captured
variables are words of objects, and only strings keep less than a word. -/
theorem readBack_of_not_isByte (placed : m.place name = .ok place) (whole : ¬ m.IsByte name) :
    m.readBack place value = value := by
  cases place with
  | global index => rfl
  | stack index => rfl
  | field object position =>
    obtain ⟨captured, runs⟩ := captures_of_place_field placed
    cases leads : m.host.heap.objects[object.index]? with
    | none => simp only [readBack, leads]
    | some found =>
      cases found with
      | string bytes => exact absurd ⟨captured, object, bytes, runs, leads⟩ whole
      | _ => simp only [readBack, leads, Object.readBack]

/-- Of one that is, the low byte of a number is read back. Nothing but a number can have been
written there. -/
theorem readBack_of_isByte (placed : m.place name = .ok place) (isByte : m.IsByte name)
    (done : writeSlot place value m = .ok () n) :
    ∃ number, value = .scalar number ∧
      m.readBack place value = .scalar (Int32.ofInt (number.toInt % 256)) := by
  obtain ⟨storage, index⟩ := name
  obtain ⟨captured, object, bytes, runs, leads⟩ := isByte
  obtain rfl : storage = .captures := captured
  obtain ⟨_, rfl⟩ := (place_capture_iff_of_runs runs).mp placed
  obtain ⟨host, asked, _⟩ := onHost_eq_ok_iff.mp done
  obtain ⟨heap, set, _⟩ := onHeap_eq_ok_iff.mp asked
  obtain ⟨found, leads', _, takes, _⟩ := Heap.setField_eq_ok_iff.mp set
  obtain rfl : .string bytes = found := Option.some.inj (leads.symm.trans leads')
  cases value with
  | scalar number => exact ⟨number, rfl, by simp only [readBack, leads, Object.readBack]⟩
  | ref object => cases takes rfl
  | slot place => cases takes rfl

/-- The variables of a frame are separate, in any state. A store into one of them is loaded from it
again, as a byte if it is a byte of a string, and leaves all others as they were, except that
captured variables are not to be found where they were behind another last argument. The frame
pointer, the top of the stack and the linkage of the frame stay as they are. -/
theorem variables_are_separate (distinct : a ≠ b) (loaded : m.load b = .ok word)
    (stored : store a value m = .ok () n) :
    (¬ (b.storage = .captures ∧ m.IsLastArgument a) → n.load b = .ok word) ∧
    (¬ m.IsByte a → n.load a = .ok value) ∧
    (m.IsByte a → ∃ number, value = .scalar number ∧
      n.load a = .ok (.scalar (Int32.ofInt (number.toInt % 256)))) ∧
    n.frame = m.frame ∧ n.stack.top = m.stack.top ∧
    ∀ offset < 3, n.stack.get (m.frame + offset) = m.stack.get (m.frame + offset) := by
  obtain ⟨place, placed, done⟩ := store_eq_ok_iff.mp stored
  obtain ⟨other, placed', read⟩ := load_eq_ok_iff.mp loaded
  have written := writeSlot_written done
  have frame := writeSlot_frame done
  have loads : n.load a = .ok (m.readBack place value) := by
    refine load_eq_ok_iff.mpr ⟨place, ?_, readSlot_of_writeSlot done (place_ne_entry placed)⟩
    refine written.placed frame placed ?_ placed
    rintro captured ⟨argument, _⟩
    cases captured.symm.trans argument
  refine ⟨?_, ?_, ?_, frame, written.top, ?_⟩
  · intro unrelated
    have apart : place ≠ other := by
      rintro rfl
      exact distinct (place_injective placed placed')
    have finds := written.placed frame placed (fun captured last => unrelated ⟨captured, last⟩)
      placed'
    exact load_eq_ok_iff.mpr ⟨other, finds, written.readSlot apart (place_ne_entry placed') read⟩
  · intro whole
    rw [loads, readBack_of_not_isByte placed whole]
  · intro isByte
    obtain ⟨number, same, readBack⟩ := readBack_of_isByte placed isByte done
    exact ⟨number, same, by rw [loads, readBack]⟩
  · intro offset linkage
    exact written.get (place_ne_linkage placed linkage)

/-- A program that calls a closure with an argument. Its function has variables of all storages. -/
def allStorages : Image where
  strings := #[]
  publics := []
  code := (([.enter 2 0, .constant 7, .store ⟨.globals, 0⟩, .drop, .closure 45 [⟨.globals, 0⟩],
    .constant 8, .callClosure 1, .stop, .enterClosure 2 1, .stop] :
    List Instruction).flatMap Instruction.encode).toArray
  globals := 1

/-- The captured variable is stored into, and the argument is as it was. The running closure is no
string, so the whole number is read back. -/
theorem variables_are_separate_allStorages :
    ∃ m n, Reachable allStorages 16 (Workspace.ofInput [] {}) m ∧
      m.load ⟨.captures, 0⟩ = .ok (.scalar 7) ∧ m.load ⟨.arguments, 0⟩ = .ok (.scalar 8) ∧
      store ⟨.captures, 0⟩ (.scalar 9) m = .ok () n ∧
      n.load ⟨.captures, 0⟩ = .ok (.scalar 9) ∧ n.load ⟨.arguments, 0⟩ = .ok (.scalar 8) := by
  obtain ⟨first, made, capture, argument, stores, object, last⟩ :
      ∃ first, (Machine.start allStorages 16 .boundless (Workspace.ofInput [] {})).2 = .ok first ∧
        (afterTurns allStorages 8 first).load ⟨.captures, 0⟩ = .ok (.scalar 7) ∧
        (afterTurns allStorages 8 first).load ⟨.arguments, 0⟩ = .ok (.scalar 8) ∧
        (store ⟨.captures, 0⟩ (.scalar 9)).run' (afterTurns allStorages 8 first) = some () ∧
        (afterTurns allStorages 8 first).host.heap.objects[0]? =
          some (.closure 45 #[.scalar 7]) ∧
        (afterTurns allStorages 8 first).runningClosure = .ok ⟨0⟩ :=
    ⟨_, rfl, by decide +kernel, by decide +kernel, by decide +kernel, by decide +kernel,
      by decide +kernel⟩
  obtain ⟨n, stored⟩ := run'_eq_some_iff.mp stores
  obtain ⟨others, itself, _⟩ := variables_are_separate (by decide) argument stored
  have whole : ¬ (afterTurns allStorages 8 first).IsByte ⟨.captures, 0⟩ := by
    rintro ⟨_, found, bytes, runs, leads⟩
    obtain rfl : ⟨0⟩ = found := Except.ok.inj (last.symm.trans runs)
    cases object.symm.trans leads
  exact ⟨_, n, reachable_iff_afterTurns.mpr ⟨_, first, 8, made, rfl⟩, capture, argument, stored,
    itself whole, others (by rintro ⟨⟨⟩, _⟩)⟩

end BytecodeMachine.Machine
