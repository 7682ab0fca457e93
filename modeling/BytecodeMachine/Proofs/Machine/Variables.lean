import BytecodeMachine.Proofs.Machine.Linkage
/-!
# Where variables are found

Exactly when a variable has a place, and which word is loaded from it. Arguments and locals
are words of the stack, counted from the frame pointer in both directions. Captures are fields
of an object that is found in two steps: the frame says how many arguments there are, and the
last one of them has to be a reference. What kind of object it leads to is not looked at.
-/
namespace BytecodeMachine.Machine

variable {σ : Type} {m : Machine σ} {index : Int32} {object : Ref} {value : Value} {count : Nat}

/-- A word is read as a reference if it is one. -/
theorem expectRef_eq_ok_iff {context : Context} :
    Answer.during context value.expectRef = .ok object ↔ value = .ref object := by
  cases value <;> simp [Value.expectRef, Answer.during]

/-- An argument has a place, whether or not there are so many arguments. -/
theorem place_argument (positive : 0 ≤ index) :
    m.place ⟨.arguments, index⟩ = .ok (.stack (m.frame + 3 + index.toInt.toNat)) := by
  simp only [place, Int32.not_lt.mpr positive, if_false]
  rfl

/-- A local has a place if the stack goes on so far above the frame. -/
theorem place_local (positive : 0 ≤ index) (inside : index.toInt.toNat < m.frame) :
    m.place ⟨.locals, index⟩ = .ok (.stack (m.frame - (index.toInt.toNat + 1))) := by
  simp only [place, Int32.not_lt.mpr positive, if_false, inside, if_true]
  rfl

/-- The number of arguments is read from the word behind the frame pointer, which has to be a
number and not negative. -/
theorem argumentCount_eq_ok_iff :
    m.argumentCount = .ok count ↔
      ∃ number, m.stack.get (m.frame + 1) = .ok (.scalar number) ∧ 0 ≤ number ∧
        count = number.toInt.toNat := by
  simp only [argumentCount, Answer.bind_eq_ok_iff, expectScalar_eq_ok_iff]
  constructor
  · rintro ⟨_, counted, number, rfl, checked⟩
    split at checked
    · cases checked
    · next positive =>
      cases checked
      exact ⟨number, counted, Int32.not_lt.mp positive, rfl⟩
  · rintro ⟨number, counted, positive, rfl⟩
    refine ⟨_, counted, number, rfl, ?_⟩
    rw [if_neg (Int32.not_lt.mpr positive)]
    rfl

/-- A number of arguments that is not zero is a positive number. -/
theorem toNat_ne_zero_iff {number : Int32} : number.toInt.toNat ≠ 0 ↔ 0 < number := by
  rw [Int32.lt_iff_toInt_lt, Int32.toInt_zero]
  omega

/-- Captures are looked for in what the last argument refers to, if there is an argument. Its place
is found from the number of arguments, and the word there has to be a reference. -/
theorem runningClosure_eq_ok_iff :
    m.runningClosure = .ok object ↔
      ∃ number, m.stack.get (m.frame + 1) = .ok (.scalar number) ∧ 0 < number ∧
        m.stack.get (m.frame + 3 + (number.toInt.toNat - 1)) = .ok (.ref object) := by
  simp only [runningClosure, Answer.bind_eq_ok_iff, argumentCount_eq_ok_iff]
  constructor
  · rintro ⟨_, ⟨number, counted, _, rfl⟩, found⟩
    split at found
    · cases found
    · next some =>
      obtain ⟨_, last, isRef⟩ := Answer.bind_eq_ok_iff.mp found
      rw [expectRef_eq_ok_iff.mp isRef] at last
      exact ⟨number, counted, toNat_ne_zero_iff.mp some, last⟩
  · rintro ⟨number, counted, positive, last⟩
    refine ⟨_, ⟨number, counted, Int32.le_of_lt positive, rfl⟩, ?_⟩
    rw [if_neg (toNat_ne_zero_iff.mpr positive)]
    exact Answer.bind_eq_ok_iff.mpr ⟨_, last, expectRef_eq_ok_iff.mpr rfl⟩

/-- A capture is the field behind the entry and the captures before it, in whatever the last
argument refers to. -/
theorem place_capture_eq_ok_iff {found : Slot} :
    m.place ⟨.captures, index⟩ = .ok found ↔
      0 ≤ index ∧ ∃ object, m.runningClosure = .ok object ∧
        found = .field object (index.toInt.toNat + 1) := by
  by_cases negative : index < 0
  · simp only [place, negative, if_true, Int32.not_le.mpr negative, false_and, iff_false]
    rintro ⟨⟩
  · simp only [place, negative, if_false, Int32.not_lt.mp negative, true_and]
    constructor
    · intro placed
      obtain ⟨object, runs, ⟨⟩⟩ := Answer.bind_eq_ok_iff.mp placed
      exact ⟨object, runs, rfl⟩
    · rintro ⟨object, runs, rfl⟩
      exact Answer.bind_eq_ok_iff.mpr ⟨object, runs, rfl⟩

/-- What the last argument refers to is where captures are, whatever it is. Of the object nothing
is asked here: a field that it has not got is refused when it is read. -/
theorem place_capture_iff_of_runs (runs : m.runningClosure = .ok object) {found : Slot} :
    m.place ⟨.captures, index⟩ = .ok found ↔
      0 ≤ index ∧ found = .field object (index.toInt.toNat + 1) := by
  rw [place_capture_eq_ok_iff]
  constructor
  · rintro ⟨positive, other, same, rfl⟩
    obtain rfl : object = other := Except.ok.inj (runs.symm.trans same)
    exact ⟨positive, rfl⟩
  · rintro ⟨positive, rfl⟩
    exact ⟨positive, object, runs, rfl⟩

/-- A place that is checked before it is given. -/
theorem checked_eq_ok_iff {holds : Prop} [Decidable holds] {cause : Fault} {given found : Slot} :
    (if holds then return given else throw cause : Answer Slot) = .ok found ↔
      holds ∧ found = given := by
  by_cases check : holds
  · simp only [check, if_true, true_and]
    exact ⟨fun same => (Except.ok.inj same).symm, fun same => congrArg Except.ok same.symm⟩
  · simp only [check, if_false, false_and, iff_false]
    rintro ⟨⟩

/-- All places at a glance. Globals and arguments are counted upwards and locals downwards, and only
globals and locals have to be there. -/
theorem place_eq_ok_iff {name : Variable} {found : Slot} :
    m.place name = .ok found ↔ 0 ≤ name.index ∧
      match name.storage with
      | .globals => name.index.toInt.toNat < m.globals.size ∧
          found = .global name.index.toInt.toNat
      | .locals => name.index.toInt.toNat < m.frame ∧
          found = .stack (m.frame - (name.index.toInt.toNat + 1))
      | .arguments => found = .stack (m.frame + 3 + name.index.toInt.toNat)
      | .captures => ∃ object, m.runningClosure = .ok object ∧
          found = .field object (name.index.toInt.toNat + 1) := by
  obtain ⟨storage, index⟩ := name
  by_cases negative : index < 0
  · simp only [place, negative, if_true, Int32.not_le.mpr negative, false_and, iff_false]
    rintro ⟨⟩
  · have positive := Int32.not_lt.mp negative
    cases storage with
    | globals =>
      simp only [place, negative, if_false, positive, true_and]
      exact checked_eq_ok_iff
    | locals =>
      simp only [place, negative, if_false, positive, true_and]
      exact checked_eq_ok_iff
    | arguments =>
      rw [place_argument positive, Except.ok.injEq]
      exact ⟨fun same => ⟨positive, same.symm⟩, fun same => same.2.symm⟩
    | captures => exact place_capture_eq_ok_iff

/-- A variable has the same place in another machine with the same frame pointer and as many
globals, if captured variables are looked for in the same object. -/
theorem place_of_same {n : Machine σ} {name : Variable} {found : Slot} (frame : n.frame = m.frame)
    (globals : n.globals.size = m.globals.size)
    (runs : ∀ object, name.storage = .captures → m.runningClosure = .ok object →
      n.runningClosure = .ok object)
    (placed : m.place name = .ok found) : n.place name = .ok found := by
  obtain ⟨storage, index⟩ := name
  obtain ⟨positive, there⟩ := place_eq_ok_iff.mp placed
  refine place_eq_ok_iff.mpr ⟨positive, ?_⟩
  cases storage with
  | globals =>
    dsimp only
    rw [globals]
    exact there
  | locals =>
    dsimp only
    rw [frame]
    exact there
  | arguments =>
    dsimp only
    rw [frame]
    exact there
  | captures =>
    obtain ⟨object, before, same⟩ := there
    exact ⟨object, runs object rfl before, same⟩

variable [Host σ]

/-- A variable is loaded by finding its place and reading there. -/
theorem load_eq_ok_iff {name : Variable} :
    m.load name = .ok value ↔ ∃ place, m.place name = .ok place ∧ m.readSlot place = .ok value := by
  simp only [load, Answer.bind_eq_ok_iff, Answer.during_eq_ok_iff]

/-- A capture is loaded by asking the host for a field. Two things can prevent that: there is no
place for the capture, or the host refuses. -/
theorem load_capture_eq_ok_iff :
    m.load ⟨.captures, index⟩ = .ok value ↔
      0 ≤ index ∧ ∃ object, m.runningClosure = .ok object ∧
        Host.field object (index.toInt.toNat + 1) m.host = .ok value := by
  rw [load_eq_ok_iff]
  constructor
  · rintro ⟨_, placed, read⟩
    obtain ⟨positive, object, runs, rfl⟩ := place_capture_eq_ok_iff.mp placed
    exact ⟨positive, object, runs, read⟩
  · rintro ⟨positive, object, runs, read⟩
    exact ⟨_, place_capture_eq_ok_iff.mpr ⟨positive, object, runs, rfl⟩, read⟩

/-- Several variables are loaded one by one, each for itself. Proof: induction on the list. Loading
changes nothing, so later variables are loaded from the same machine. -/
theorem loadAll_eq_ok_iff {names : List Variable} {words : List Value} :
    m.loadAll names = .ok words ↔
      words.length = names.length ∧
        ∀ (index : Nat) name, names[index]? = some name →
          ∃ word, words[index]? = some word ∧ m.load name = .ok word := by
  induction names generalizing words with
  | nil =>
    simp only [loadAll, List.length_nil, List.getElem?_nil, reduceCtorEq, false_implies,
      implies_true, and_true, List.length_eq_zero_iff]
    constructor
    · rintro ⟨⟩
      rfl
    · rintro rfl
      rfl
  | cons name rest later =>
    simp only [loadAll, Answer.bind_eq_ok_iff, later]
    constructor
    · rintro ⟨word, first, words, ⟨length, others⟩, ⟨⟩⟩
      refine ⟨congrArg (· + 1) length, ?_⟩
      rintro (_ | index) other found
      · cases found
        exact ⟨word, rfl, first⟩
      · exact others index other found
    · rintro ⟨length, all⟩
      cases words with
      | nil => cases length
      | cons word words =>
        obtain ⟨_, ⟨⟩, first⟩ := all 0 name rfl
        exact ⟨word, first, words, ⟨Nat.succ.inj length, fun index other found =>
          all (index + 1) other found⟩, rfl⟩

end BytecodeMachine.Machine
