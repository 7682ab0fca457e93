import BytecodeMachine.Host.Workspace
import BytecodeMachine.Instruction.Encode
import BytecodeMachine.Proofs.Machine.Registers
import BytecodeMachine.Proofs.Stack.Request
/-!
# No step leaves its areas

Whatever a program does with the words that link frames, with indices and with counts, the
registers of a machine stay inside, and nothing that a step does on the stack, on the globals
or in the code is outside of them.

For the stack this is `Stack.Request.attempt_eq_run`, which holds on every stack and so also
in the middle of a step. The same is done here for the code and for finding variables: both
once more with no safeguard but their own checks, where a byte that is not there and a
difference that would be negative are traps.
-/
namespace BytecodeMachine

namespace Cursor

/-- Reads a byte, if that does not trap. -/
def byte? (cursor : Cursor) : Option (EStateM.Result Fault Cursor UInt8) :=
  if cursor.code.size ≤ cursor.pos then some (.error (.code (.byteMissing cursor.pos)) cursor)
  else do
    let b ← cursor.code[cursor.pos]?
    some (.ok b { cursor with pos := cursor.pos + 1 })

/-- Reads a number, if that does not trap. -/
def number? (cursor : Cursor) : Option (EStateM.Result Fault Cursor Int32) :=
  if cursor.code.size < cursor.pos + 4 then
    some (.error (.code (.numberMissing cursor.pos)) cursor)
  else do
    let a ← cursor.code[cursor.pos]?
    let b ← cursor.code[cursor.pos + 1]?
    let c ← cursor.code[cursor.pos + 2]?
    let d ← cursor.code[cursor.pos + 3]?
    some (.ok (LittleEndian.decode a b c d) { cursor with pos := cursor.pos + 4 })

/-- No reading of a byte traps. -/
theorem byte?_eq (cursor : Cursor) : cursor.byte? = some (byte cursor) := by
  by_cases inside : cursor.pos < cursor.code.size
  · have more : ¬ cursor.code.size ≤ cursor.pos := Nat.not_le.mpr inside
    simp [byte?, byte, inside, more]
  · have none : cursor.code.size ≤ cursor.pos := Nat.not_lt.mp inside
    simp [byte?, byte, inside, none]

/-- No reading of a number traps. The four bytes are read at once after their number has been
checked, so each of the four positions lies inside the code. -/
theorem number?_eq (cursor : Cursor) : cursor.number? = some (number cursor) := by
  by_cases inside : cursor.pos + 4 ≤ cursor.code.size
  · have more : ¬ cursor.code.size < cursor.pos + 4 := Nat.not_lt.mpr inside
    have first : cursor.pos < cursor.code.size := by omega
    have second : cursor.pos + 1 < cursor.code.size := by omega
    have third : cursor.pos + 2 < cursor.code.size := by omega
    have fourth : cursor.pos + 3 < cursor.code.size := by omega
    simp [number?, number, inside, more, first, second, third, fourth]
  · have few : cursor.code.size < cursor.pos + 4 := Nat.lt_of_not_le inside
    simp [number?, number, inside, few]

end Cursor

namespace Machine

open BytecodeMachine.Action

variable {σ : Type} {image : Image} {capacity : Nat}

/-- Finds the closure that runs, if that does not trap. -/
def runningClosure? (m : Machine σ) : Option (Answer Ref) :=
  match m.argumentCount with
  | .error cause => some (.error cause)
  | .ok count =>
    if count = 0 then some (.error (.frame .noClosure))
    else do
      let index ← minus? (m.frame + 3 + count) 1
      match m.stack.get index with
      | .error cause => some (.error cause)
      | .ok word => some (Answer.during .lastArgument word.expectRef)

/-- Finds a variable, if that does not trap. A local is looked for by a checked difference. -/
def place? (name : Variable) (m : Machine σ) : Option (Answer Slot) :=
  if name.index < 0 then some (.error (.frame (.negativeIndex name.storage name.index)))
  else
    let index := name.index.toInt.toNat
    match name.storage with
    | .globals =>
      if index < m.globals.size then some (.ok (.global index))
      else some (.error (.frame (.globalUndeclared index m.globals.size)))
    | .locals =>
      match minus? m.frame (index + 1) with
      | some found => some (.ok (.stack found))
      | none => some (.error (.frame (.localBelowStack index)))
    | .arguments => some (.ok (.stack (m.frame + 3 + index)))
    | .captures => do
      match ← m.runningClosure? with
      | .ok closure => some (.ok (.field closure (index + 1)))
      | .error cause => some (.error cause)

/-- A closure is only looked for below an argument. The subtraction that could go below zero is
made where there is one argument at least, and the three words of linkage are under it as well. -/
theorem runningClosure?_eq (m : Machine σ) : m.runningClosure? = some m.runningClosure := by
  unfold runningClosure? runningClosure
  cases m.argumentCount with
  | error cause => rfl
  | ok count =>
    by_cases none : count = 0
    · subst none
      rfl
    · have some : 1 ≤ m.frame + 3 + count := by omega
      have index : m.frame + 3 + count - 1 = m.frame + 3 + (count - 1) := by omega
      simp only [none, if_false, minus?_eq_some some, index, bind, Except.bind, Option.bind]
      cases m.stack.get (m.frame + 3 + (count - 1)) <;> rfl

/-- Finding a variable never traps. The one subtraction, for locals, is behind the check that there
is such a local. -/
theorem place?_eq (name : Variable) (m : Machine σ) : m.place? name = some (m.place name) := by
  obtain ⟨storage, index⟩ := name
  unfold place? place
  by_cases negative : index < 0
  · simp only [negative, if_true]
    rfl
  · simp only [negative, if_false]
    generalize index.toInt.toNat = position
    cases storage with
    | globals => by_cases declared : position < m.globals.size <;> simp [declared] <;> rfl
    | locals =>
      by_cases inside : position < m.frame
      · simp only [inside, if_true, minus?_eq_some (Nat.succ_le_of_lt inside)]
        rfl
      · have outside : ¬ position + 1 ≤ m.frame := inside
        simp only [inside, if_false, minus?, outside]
        rfl
    | arguments => rfl
    | captures =>
      dsimp only
      rw [runningClosure?_eq]
      cases m.runningClosure <;> rfl

/-- A frame pointer that is inside a stack of a size that is accepted fits in a word. -/
theorem toInt_ofNat_frame {frame : Nat} (inside : frame ≤ greatestCapacity) :
    (Int32.ofNat frame).toInt = (frame : Int) := by
  have fits : frame < 2147483648 := by
    simp only [greatestCapacity] at inside
    omega
  exact toInt_ofNat fits

/-- A global that has been written was inside the area. -/
theorem writeGlobal_lt {m n : Machine σ} {index : Nat} {value : Value} {a : Unit}
    (written : writeGlobal index value m = .ok a n) : index < m.globals.size := by
  obtain ⟨stack, globals, host, frame, next, line, depth⟩ := m
  simp only [writeGlobal] at written
  split at written
  · assumption
  · cases written

variable [Host σ]

/-- So was one that has been read. -/
theorem readSlot_global_lt {m : Machine σ} {index : Nat} {value : Value}
    (found : m.readSlot (.global index) = .ok value) : index < m.globals.size := by
  simp only [readSlot] at found
  split at found
  · next there => exact (Array.getElem?_eq_some_iff.mp there).1
  · cases found

/-- In every state that a machine comes to, also behind faults: the areas have the sizes they
were made with, the registers are inside, and the frame pointer as a word is the frame pointer.
What a step does is inside too, in its middle as at its start: no request to a stack traps, nor
does finding a variable nor reading code; what is read next is inside the code; and a global
that is read or written is one of the globals area. -/
theorem steps_stay_inside {m : Machine σ} {host : σ}
    (reachable : Reachable image capacity host m) :
    (m.stack.words.size = capacity ∧ m.stack.top ≤ capacity ∧ capacity ≤ greatestCapacity ∧
        m.frame ≤ capacity ∧ m.next ≤ image.code.size ∧ m.globals.size = image.globals) ∧
      (Int32.ofNat m.frame).toInt = (m.frame : Int) ∧
      (∀ (stack : Stack) (request : Stack.Request),
        request.attempt stack.cells = some (Stack.Request.onCells (request.run stack))) ∧
      (∀ (s : Machine σ) (name : Variable), s.place? name = some (s.place name)) ∧
      (∀ cursor : Cursor, cursor.byte? = some (Cursor.byte cursor) ∧
        cursor.number? = some (Cursor.number cursor)) ∧
      (∀ instruction behind, fetch image m.next = .ok (instruction, behind) →
        m.next < behind ∧ behind ≤ image.code.size) ∧
      ∀ (s : Machine σ) index value,
        (s.readSlot (.global index) = .ok value → index < s.globals.size) ∧
          ∀ t, writeGlobal index value s = .ok () t → index < s.globals.size := by
  obtain ⟨bounded, accepted⟩ := reachable.bounded
  have size : m.stack.words.size = capacity := bounded.capacity_eq
  have inside : m.stack.top ≤ capacity := by
    rw [← size]
    exact m.stack.top_le
  have fits : m.frame ≤ greatestCapacity := Nat.le_trans bounded.frame_le accepted
  constructor
  · exact ⟨size, inside, accepted, bounded.frame_le, bounded.next_le, bounded.globals_eq⟩
  constructor
  · exact toInt_ofNat_frame fits
  constructor
  · intro stack request
    exact request.attempt_eq_run stack
  constructor
  · intro s name
    exact place?_eq name s
  constructor
  · intro cursor
    exact ⟨cursor.byte?_eq, cursor.number?_eq⟩
  constructor
  · intro instruction behind fetched
    exact fetch_inside fetched
  · intro s index value
    exact ⟨readSlot_global_lt, fun t written => writeGlobal_lt written⟩

/-- A program that puts a number of its own in the place of its caller's frame pointer. -/
def forgedLink : Image where
  strings := #[]
  publics := []
  code := (([.enter 0 0, .drop, .constant 99, .constant 7, .leave] : List Instruction).flatMap
    Instruction.encode).toArray
  globals := 0

/-- The forged frame pointer is refused, and behind the fault the machine still has its own. So its
registers are as bounded as those of any other machine that can be reached. -/
theorem steps_stay_inside_forgedLink :
    ∃ m cause n, Reachable forgedLink 16 (Workspace.ofInput [] {}) m ∧
      advance forgedLink m = .error cause n ∧ n.frame ≤ 16 ∧ n.next ≤ forgedLink.code.size := by
  obtain ⟨first, cause, n, made, faulted⟩ :
      ∃ first cause n,
        (Machine.start forgedLink 16 .boundless (Workspace.ofInput [] {})).2 = .ok first ∧
        advance forgedLink (record forgedLink 4 [] first).2 = .error cause n :=
    ⟨_, _, _, rfl, rfl⟩
  have reachable := ((History.start made).record 4).reachable
  have bounded := (steps_stay_inside (reachable.fault faulted)).1
  exact ⟨_, cause, n, reachable, faulted, bounded.2.2.2.1, bounded.2.2.2.2.1⟩

end Machine

end BytecodeMachine
