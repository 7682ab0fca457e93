import BytecodeMachine.Proofs.Machine.FreshFrames
import BytecodeMachine.Proofs.Machine.LastArgument
import BytecodeMachine.Proofs.Machine.NewObjects
import BytecodeMachine.Proofs.Machine.Progress
/-!
# Captured variables

A closure is made with the words that its captured variables have at that moment. From then on
they are its own: whatever calls it, its function finds them under their numbers, and what it
stores into one of them is found by every later call of the same closure, as long as nothing
else is stored there.

The function finds the closure through its frame, by the number of arguments and the last
argument. Both lie on the stack, where a program can reach them. It may overwrite them, and
it may as well take them off the stack without overwriting them; in both cases the captures
are out of reach, while the closure keeps them.
-/
namespace BytecodeMachine.Machine

open BytecodeMachine.Action

variable {image : Image} {capacity : Nat} {m n s t u w : Machine Workspace} {closure object : Ref}
  {arguments behind entry position : Nat} {captured : List Variable} {address : Int32}
  {flow : Flow} {value : Value} {instruction : Instruction} {place : Slot}

/-! ### Making a closure -/

/-- From `m` to `n` a closure has been made, of the words that some variables have. A reference to
it has been pushed, the next offset has been moved, and nothing else has changed. -/
def MakesClosure (object : Ref) (entry behind : Nat) (captured : List Variable)
    (m n : Machine Workspace) : Prop :=
  ∃ (words : List Value) (stack : Stack), words.length = captured.length ∧
    (∀ (index : Nat) name, captured[index]? = some name →
      ∃ word, words[index]? = some word ∧ m.load name = .ok word) ∧
    Stack.push (.ref object) m.stack = .ok () stack ∧
    n = { m.withObject (.closure entry words.toArray) with stack, next := behind }

/-- A closure is made with the next reference. Its captures are loaded before it is allocated and
before it is pushed, so they are those of the frame that the instruction is executed in. -/
theorem execute_closure
    (done : execute image (.closure address captured) { m with next := behind } = .ok flow n) :
    MakesClosure ⟨m.host.heap.size⟩ address.toInt.toNat behind captured m n := by
  simp only [execute, push, answer, bind_eq_ok_iff, observe_eq_ok_iff, target_eq_ok_iff] at done
  obtain ⟨_, _, ⟨⟨_, rfl⟩, rfl⟩, words, _, ⟨loaded, rfl⟩, reference, _, made, _, _, pushed, ⟨⟩⟩ :=
    done
  obtain ⟨rfl, rfl⟩ := alloc_eq_ok made
  obtain ⟨stack, added, rfl⟩ := onStack_eq_ok_iff.mp pushed
  obtain ⟨length, loads⟩ := loadAll_eq_ok_iff.mp loaded
  exact ⟨words, stack, length, loads, added, rfl⟩

/-- The reference leads to the closure that has been made. -/
theorem MakesClosure.leads (makes : MakesClosure object entry behind captured m n)
    (next : object = ⟨m.host.heap.size⟩) :
    ∃ words, n.host.heap.objects[object.index]? = some (.closure entry words) ∧
      words.size = captured.length := by
  obtain ⟨words, _, length, _, _, rfl⟩ := makes
  rw [next]
  exact ⟨words.toArray, leads_withObject _ m, length⟩

/-- A closure stays one, with the same entry and as many captures. What is later may have stored
into it, but stores keep the shape, and the shape tells all of this. -/
theorem Later.leads {words : Array Value} (later : Later image m n)
    (leads : m.host.heap.objects[object.index]? = some (.closure entry words)) :
    ∃ now, n.host.heap.objects[object.index]? = some (.closure entry now) ∧
      now.size = words.size := by
  have shape : m.host.heap.shape? object = some ⟨.closure, words.size + 1, none, some entry⟩ := by
    rw [Heap.shape?, leads]
    rfl
  obtain ⟨found, there, same⟩ := Option.map_eq_some_iff.mp (later.shape? shape)
  obtain ⟨now, rfl, size⟩ := Object.shape_eq_closure_iff.mp same
  exact ⟨now, there, size⟩

/-! ### Running a closure -/

/-- In a run from `m` a closure has been called with so many arguments, and the entry behind the
call has just opened the frame of its function. -/
inductive OpenedOn (image : Image) (m : Machine Workspace) (closure : Ref) (arguments : Nat) :
    Machine Workspace → Prop
  | entered {caller callee opened : Machine Workspace} {operand : Int32} {behind behind' : Nat}
      {instruction : Instruction} {flow flow' : Flow} (later : Later image m caller)
      (calls : fetch image caller.next = .ok (.callClosure operand, behind))
      (all : operand.toInt.toNat = arguments)
      (below : caller.stack.peek arguments = .ok (.ref closure))
      (called : advance image caller = .ok flow callee)
      (fetched : fetch image callee.next = .ok (instruction, behind'))
      (opens : instruction.isEntry = true)
      (entered : advance image callee = .ok flow' opened) :
      OpenedOn image m closure arguments opened

/-- The frame is the one that was opened, and neither the number of arguments nor the last argument
has been overwritten since. -/
def SameFrame (arguments : Nat) (opened t : Machine Workspace) : Prop :=
  t.frame = opened.frame ∧
    t.stack.words[t.frame + 1]? = opened.stack.words[t.frame + 1]? ∧
    t.stack.words[t.frame + 3 + arguments]? = opened.stack.words[t.frame + 3 + arguments]?

instance (arguments : Nat) (opened t : Machine Workspace) :
    Decidable (SameFrame arguments opened t) := inferInstanceAs (Decidable (_ ∧ _ ∧ _))

/-- A state of a run from `m` in a frame that a call of a closure has opened. -/
def RunsClosure (image : Image) (m : Machine Workspace) (closure : Ref)
    (t : Machine Workspace) : Prop :=
  ∃ arguments opened, OpenedOn image m closure arguments opened ∧ Later image opened t ∧
    SameFrame arguments opened t

/-- The number of arguments is still on the stack, and so are the arguments below it. -/
def FrameLive (t : Machine Workspace) : Prop := t.stack.top ≤ t.frame + 1

instance (t : Machine Workspace) : Decidable t.FrameLive := Nat.decLe _ _

/-- The frame of a closure's function has the closure as its last argument. The call leaves it
under the linkage with the other arguments, and entering opens the frame right above them. -/
theorem OpenedOn.freshFrame (opened : OpenedOn image m closure arguments t) :
    ∃ locals values below, values.length = arguments ∧
      FreshFrame locals (values ++ [.ref closure]) below t := by
  obtain @⟨caller, callee, _, operand, behind, behind', _, _, _, _, calls, rfl, below, called,
    fetched, opens, entered⟩ := opened
  obtain ⟨values, rest, all, live⟩ := Stack.exists_live_of_peek below
  obtain ⟨_, passed⟩ := execute_callClosure_passed (m := { caller with next := behind }) live all
    (executed_of_advance calls called)
  have started := enter_of_execute opens (executed_of_advance fetched entered)
  exact ⟨_, values, rest, all, enter_fresh (m := { callee with next := behind' }) passed started⟩

/-- As long as the frame is what it was when it was opened, captured variables are looked for in
the closure. -/
theorem RunsClosure.runningClosure (runs : RunsClosure image m closure t)
    (live : t.FrameLive) : t.runningClosure = .ok closure := by
  obtain ⟨arguments, opened, on, _, frame, counted, last⟩ := runs
  obtain ⟨locals, values, below, rfl, fresh⟩ := on.freshFrame
  have length : (values ++ [Value.ref closure]).length = values.length + 1 := by
    rw [List.length_append, List.length_singleton]
  have fits := fresh.fits
  have count := (Stack.get_eq_ok_iff.mp fresh.get_argumentCount).2
  have word := (Stack.get_eq_ok_iff.mp (fresh.get_argument List.getElem?_concat_length)).2
  rw [length] at fits count
  rw [← frame, ← counted] at count
  rw [← frame, ← last] at word
  have place : values.length = (Int32.ofNat (values.length + 1)).toInt.toNat - 1 := by
    rw [toNat_ofNat fits, Nat.add_sub_cancel]
  have positive : 0 < Int32.ofNat (values.length + 1) := by
    rw [← toNat_ne_zero_iff, toNat_ofNat fits]
    exact Nat.succ_ne_zero _
  rw [FrameLive] at live
  rw [place] at word
  exact runningClosure_eq_ok_iff.mpr ⟨_, Stack.get_eq_ok_iff.mpr ⟨live, count⟩, positive,
    Stack.get_eq_ok_iff.mpr ⟨by omega, word⟩⟩

/-- Captured variables are the captures of the closure, in order, and there are no others. -/
def FindsCaptures (captures : Array Value) (t : Machine Workspace) : Prop :=
  ∀ index : Int32, 0 ≤ index →
    (∀ value, captures[index.toInt.toNat]? = some value →
      t.load ⟨.captures, index⟩ = .ok value) ∧
    (captures.size ≤ index.toInt.toNat → ∃ cause, t.load ⟨.captures, index⟩ = .error cause)

section

variable {now : Array Value} (found : t.runningClosure = .ok closure)
  (leads : t.host.heap.objects[closure.index]? = some (.closure entry now))
include found leads

/-- If the running closure leads to captures, then captured variables are found there and nowhere
else. Both clauses are the same equivalence, read for an index inside and for one beyond. -/
theorem findsCaptures : FindsCaptures now t := by
  intro index positive
  constructor
  · intro value there
    exact (load_capture_iff_of_runs found leads).mpr ⟨positive, there⟩
  · intro beyond
    refine Answer.exists_error_iff.mpr ?_
    rintro ⟨value, loaded⟩
    obtain ⟨_, there⟩ := (load_capture_iff_of_runs found leads).mp loaded
    have inside : index.toInt.toNat < now.size := (Array.getElem?_eq_some_iff.mp there).1
    omega

end

/-- There is a word on top of the stack of a function that finds its closure. -/
theorem exists_topmost (found : t.runningClosure = .ok closure) :
    ∃ value, t.stack.peek 0 = .ok value := by
  obtain ⟨_, counted, _⟩ := runningClosure_eq_ok_iff.mp found
  obtain ⟨live, there⟩ := Stack.get_eq_ok_iff.mp counted
  have inside : t.stack.top < t.stack.words.size :=
    Nat.lt_of_le_of_lt live (Array.getElem?_eq_some_iff.mp there).1
  exact ⟨_, Stack.peek_eq_ok_iff.mpr (Array.getElem?_eq_getElem inside)⟩

/-- The machine with a closure in the place of an object. -/
def withClosure (object : Ref) (entry : Nat) (captures : Array Value) (m : Machine Workspace) :
    Machine Workspace :=
  { m with
    host := { m.host with
      heap := ⟨m.host.heap.objects.setIfInBounds object.index (.closure entry captures)⟩ } }

section

variable {now : Array Value} (found : t.runningClosure = .ok closure)
  (leads : t.host.heap.objects[closure.index]? = some (.closure entry now))
include found leads

/-- A store into a captured variable replaces the capture by the topmost word, and nothing else.
The variable is a raw field of the running closure, and a closure takes any word there. -/
theorem advance_store_capture {index : Int32} (positive : 0 ≤ index)
    (inside : index.toInt.toNat < now.size) (topmost : t.stack.peek 0 = .ok value)
    (fetched : fetch image t.next = .ok (.store ⟨.captures, index⟩, behind)) :
    advance image t = .ok .next (withClosure closure entry
      (now.setIfInBounds index.toInt.toNat value) { t with next := behind }) := by
  have reads := fetch_inside fetched
  refine advance_eq_ok_iff.mpr ⟨_, _, by omega, fetched, ?_⟩
  have placed : t.place ⟨.captures, index⟩ = .ok (.field closure (index.toInt.toNat + 1)) :=
    (place_capture_iff_of_runs found).mpr ⟨positive, rfl⟩
  have set := Heap.setField_capture leads inside value
  refine bind_eq_ok_iff.mpr ⟨value, { t with next := behind },
    observe_eq_ok_iff.mpr ⟨topmost, rfl⟩, bind_eq_ok_iff.mpr ⟨(), _, ?_, rfl⟩⟩
  refine bind_eq_ok_iff.mpr ⟨_, { t with next := behind },
    observe_eq_ok_iff.mpr ⟨placed, rfl⟩, during_eq_ok_iff.mpr ?_⟩
  change onHost (Workspace.onHeap (Heap.setField closure (index.toInt.toNat + 1) value))
    { t with next := behind } = _
  exact onHost_eq_ok_iff.mpr ⟨_, onHeap_eq_ok_iff.mpr ⟨_, set, rfl⟩, rfl⟩

end

/-- The capture that has been replaced is the word that was stored. The closure is still the object
at this reference, with its captures one behind the entry. -/
theorem word?_withClosure {now : Array Value} {next : Nat}
    (leads : t.host.heap.objects[closure.index]? = some (.closure entry now))
    (inside : position < now.size) (value : Value) :
    (withClosure closure entry (now.setIfInBounds position value)
      { t with next }).host.heap.word? closure (position + 1) = some value := by
  have there := (Array.getElem?_eq_some_iff.mp leads).1
  have replaced : (withClosure closure entry (now.setIfInBounds position value)
      { t with next }).host.heap.objects[closure.index]? =
        some (.closure entry (now.setIfInBounds position value)) :=
    Array.getElem?_setIfInBounds_self_of_lt there
  rw [Heap.word?_capture replaced, Array.getElem?_setIfInBounds_self_of_lt inside]

/-! ### Steps that do not store to a capture -/

/-- The next instruction stores into a place, if it succeeds. -/
def StoresInto (image : Image) (place : Slot) (m : Machine Workspace) : Prop :=
  ∃ instruction behind taken, fetch image m.next = .ok (instruction, behind) ∧
    Designates m instruction taken place

/-- An instruction that is no store stores into no place. -/
theorem not_storesInto (fetched : fetch image m.next = .ok (instruction, behind))
    (stores : instruction.isStore = false) : ¬ StoresInto image place m := by
  rintro ⟨_, _, _, read, designates⟩
  obtain ⟨rfl, _⟩ := Prod.mk.inj (Except.ok.inj (fetched.symm.trans read))
  cases designates <;> cases stores

/-- The states that a machine comes to without storing into a place on the way. -/
inductive LaterSparing (image : Image) (place : Slot) (m : Machine Workspace) :
    Machine Workspace → Prop
  | refl : LaterSparing image place m m
  | turn {s n : Machine Workspace} {flow : Flow} (before : LaterSparing image place m s)
      (spares : ¬ StoresInto image place s) (advanced : advance image s = .ok flow n) :
      LaterSparing image place m n
  | fault {s n : Machine Workspace} {cause : Fault} (before : LaterSparing image place m s)
      (faulted : advance image s = .error cause n) : LaterSparing image place m n

/-- Sparing a place or not, a later state is a later state. -/
theorem LaterSparing.later (sparing : LaterSparing image place m n) : Later image m n := by
  induction sparing with
  | refl => exact .refl
  | turn _ _ advanced earlier => exact earlier.turn advanced
  | fault _ faulted earlier => exact earlier.fault faulted

/-- What is there when objects are made stays there. -/
theorem Grown.word? (grown : Grown m n) (found : m.host.heap.word? object position = some value) :
    n.host.heap.word? object position = some value := by
  obtain ⟨added, objects, _⟩ := grown.heap
  obtain ⟨there, leads, isWord⟩ := Option.bind_eq_some_iff.mp found
  have inside : object.index < m.host.heap.objects.size := (Array.getElem?_eq_some_iff.mp leads).1
  rw [Heap.word?, objects, Array.getElem?_append_left inside, leads]
  exact isWord

/-- A turn that does not store into a word of an object leaves it as it was. A store writes the one
word that it designates, which is another one, and all other instructions let the heap grow at
most. -/
theorem advance_spares_word (spares : ¬ StoresInto image (.field object position) m)
    (advanced : advance image m = .ok flow n)
    (found : m.host.heap.word? object position = some value) :
    n.host.heap.word? object position = some value := by
  obtain ⟨instruction, behind, _, fetched, executed⟩ := advance_eq_ok_iff.mp advanced
  cases stores : instruction.isStore with
  | true =>
    obtain ⟨taken, place, designates, footprint⟩ := execute_footprint stores executed
    have elsewhere : place ≠ .field object position := by
      rintro rfl
      exact spares ⟨_, _, _, fetched, designates.of_next⟩
    exact (footprint.others.word object position elsewhere).trans found
  | false => exact ((execute_grows image stores _).of_ok executed).word? found

/-- A turn that faults leaves every word of an object as it was. If no instruction has been read
nothing has happened at all, and one that faults lets the heap grow at most. -/
theorem fault_spares_word {cause : Fault} (faulted : advance image m = .error cause n)
    (found : m.host.heap.word? object position = some value) :
    n.host.heap.word? object position = some value := by
  cases fetched : fetch image m.next with
  | error _ =>
    obtain ⟨_, stays⟩ := advance_of_unread fetched
    cases stays.symm.trans faulted
    exact found
  | ok read =>
    have inside := fetch_inside fetched
    obtain ⟨_, executed⟩ := executed_of_fault (by omega) fetched faulted
    exact (execute_fault_grown executed).word? found

/-- A word of an object is still there if no turn on the way has stored into its place. By
induction on the turns; a fault has stored nothing either. -/
theorem LaterSparing.word? (sparing : LaterSparing image (.field object position) m n)
    (found : m.host.heap.word? object position = some value) :
    n.host.heap.word? object position = some value := by
  induction sparing with
  | refl => exact found
  | turn _ spares advanced earlier => exact advance_spares_word spares advanced earlier
  | fault _ faulted earlier => exact fault_spares_word faulted earlier

/-- Whatever state the machine is in, a closure that is made is entered at its address operand and
has the words of the captured variables, in order. The reference to it has been nowhere before,
and nothing else changes.

Whenever its function runs and finds the number of arguments and the last argument where the call
has left them, captured variables are the captures that the closure has then. A store into one
of them replaces that capture. Whatever runs from there without storing to it, the function finds
the stored word, in the same frame or in another one. -/
theorem closures_keep_captures
    (fetched : fetch image m.next = .ok (.closure address captured, behind))
    (made : advance image m = .ok flow n) :
    ∃ object : Ref, object = ⟨m.host.heap.size⟩ ∧
      MakesClosure object address.toInt.toNat behind captured m n ∧ Unused image object m ∧
      ∀ t, Later image n t → RunsClosure image n object t → t.FrameLive →
        ∃ now, t.host.heap.objects[object.index]? = some (.closure address.toInt.toNat now) ∧
          now.size = captured.length ∧ FindsCaptures now t ∧
          ∀ index after, 0 ≤ index → index.toInt.toNat < captured.length →
            fetch image t.next = .ok (.store ⟨.captures, index⟩, after) →
            ∃ value u, t.stack.peek 0 = .ok value ∧ advance image t = .ok .next u ∧
              u = withClosure object address.toInt.toNat
                (now.setIfInBounds index.toInt.toNat value) { t with next := after } ∧
              ∀ w, LaterSparing image (.field object (index.toInt.toNat + 1)) u w →
                RunsClosure image n object w → w.FrameLive →
                w.load ⟨.captures, index⟩ = .ok value := by
  have makes := execute_closure (executed_of_advance fetched made)
  obtain ⟨words, leads, length⟩ := makes.leads rfl
  refine ⟨_, rfl, makes, unused_next image m, ?_⟩
  intro t later runs live
  have found := runs.runningClosure live
  obtain ⟨now, there, size⟩ := later.leads leads
  rw [length] at size
  refine ⟨now, there, size, findsCaptures found there, ?_⟩
  intro index after positive below fetched
  obtain ⟨value, topmost⟩ := exists_topmost found
  have inside : index.toInt.toNat < now.size := by omega
  have stored := advance_store_capture found there positive inside topmost fetched
  refine ⟨value, _, topmost, stored, rfl, ?_⟩
  intro w sparing runs live
  have kept := sparing.word? (word?_withClosure there inside value)
  exact load_capture_eq_ok_iff.mpr
    ⟨positive, _, runs.runningClosure live, Heap.field_succ_eq_ok_iff.mpr kept⟩

/-! ### Runs -/

/-- Two turns of a run call a closure and open the frame of its function. They are consecutive, and
whatever turns come before them are the interval up to the call. -/
theorem openedOn_afterTurns (first more : Nat) {operand : Int32}
    (calls : executes? image (afterTurns image (first + more) m) = some (.callClosure operand))
    (all : operand.toInt.toNat = arguments)
    (below : (afterTurns image (first + more) m).stack.peek arguments = .ok (.ref closure))
    (enters : executes? image (afterTurns image (first + more + 1) m) = some instruction)
    (opens : instruction.isEntry = true) :
    OpenedOn image (afterTurns image first m) closure arguments
      (afterTurns image (first + more + 2) m) := by
  obtain ⟨⟨_, fetched⟩, called⟩ := executes?_eq_some calls
  obtain ⟨⟨_, fetched'⟩, entered⟩ := executes?_eq_some enters
  exact .entered (later_afterTurns first more) fetched all below called fetched' opens entered

/-- Turns that are no stores spare every place. Proof: induction on the number of turns, each of
which is known by the instruction it executes. -/
theorem laterSparing_afterTurns (first more : Nat)
    (quiet : ∀ turns < more, ∃ instruction,
      executes? image (afterTurns image (first + turns) m) = some instruction ∧
        instruction.isStore = false) :
    LaterSparing image place (afterTurns image first m) (afterTurns image (first + more) m) := by
  induction more with
  | zero => exact .refl
  | succ more earlier =>
    obtain ⟨instruction, executes, stores⟩ := quiet more (Nat.lt_succ_self more)
    obtain ⟨⟨_, fetched⟩, advanced⟩ := executes?_eq_some executes
    exact (earlier fun turns less => quiet turns (Nat.lt_succ_of_lt less)).turn
      (not_storesInto fetched stores) advanced

/-- A program that makes a closure of a global and calls it twice. The function stores into its
captured variable. -/
def storedCapture : Image where
  strings := #[]
  publics := []
  code := (([.enter 2 0, .constant 7, .store ⟨.globals, 0⟩, .drop, .closure 47 [⟨.globals, 0⟩],
    .duplicate, .callClosure 0, .drop, .callClosure 0, .stop, .enterClosure 1 0,
    .load ⟨.captures, 0⟩, .constant 9, .store ⟨.captures, 0⟩, .leave] :
    List Instruction).flatMap Instruction.encode).toArray
  globals := 1

/-- The second call finds what the first one has stored. The closure is made, called twice, and
stored into during the first call; the turns in between are followed one by one. -/
theorem closures_keep_captures_storedCapture :
    ∃ m n t u w : Machine Workspace,
      Reachable storedCapture 16 (Workspace.ofInput [] {}) m ∧
      (∃ behind, fetch storedCapture m.next = .ok (.closure 47 [⟨.globals, 0⟩], behind)) ∧
      advance storedCapture m = .ok .next n ∧ Later storedCapture n t ∧
      RunsClosure storedCapture n ⟨0⟩ t ∧ t.FrameLive ∧
      t.load ⟨.captures, 0⟩ = .ok (.scalar 7) ∧
      (∃ behind, fetch storedCapture t.next = .ok (.store ⟨.captures, 0⟩, behind)) ∧
      advance storedCapture t = .ok .next u ∧
      LaterSparing storedCapture (.field ⟨0⟩ 1) u w ∧ RunsClosure storedCapture n ⟨0⟩ w ∧
      w.FrameLive ∧ w.frame ≠ t.frame ∧ w.load ⟨.captures, 0⟩ = .ok (.scalar 9) := by
  obtain ⟨first, made, executed, callee, callee', frame, live, live', other, size, object,
      topmost⟩ :
      ∃ first, (Machine.start storedCapture 16 .boundless (Workspace.ofInput [] {})).2 = .ok first ∧
        (∀ turns < 15, executes? storedCapture (afterTurns storedCapture turns first) =
          ([.enter 2 0, .constant 7, .store ⟨.globals, 0⟩, .drop, .closure 47 [⟨.globals, 0⟩],
            .duplicate, .callClosure 0, .enterClosure 1 0, .load ⟨.captures, 0⟩, .constant 9,
            .store ⟨.captures, 0⟩, .leave, .drop, .callClosure 0, .enterClosure 1 0] :
            List Instruction)[turns]?) ∧
        (afterTurns storedCapture 6 first).stack.live.toList[0]? = some (.ref ⟨0⟩) ∧
        (afterTurns storedCapture 13 first).stack.live.toList[0]? = some (.ref ⟨0⟩) ∧
        SameFrame 0 (afterTurns storedCapture 8 first) (afterTurns storedCapture 10 first) ∧
        (afterTurns storedCapture 10 first).FrameLive ∧
        (afterTurns storedCapture 15 first).FrameLive ∧
        (afterTurns storedCapture 15 first).frame ≠ (afterTurns storedCapture 10 first).frame ∧
        (afterTurns storedCapture 4 first).host.heap.size = 0 ∧
        (afterTurns storedCapture 10 first).host.heap.objects[0]? =
          some (.closure 47 #[.scalar 7]) ∧
        (afterTurns storedCapture 10 first).stack.live.toList[0]? = some (.scalar 9) :=
    ⟨_, rfl, by decide +kernel, by decide +kernel, by decide +kernel, by decide +kernel,
      by decide +kernel, by decide +kernel, by decide +kernel, by decide +kernel,
      by decide +kernel, by decide +kernel⟩
  have reachable : Reachable storedCapture 16 (Workspace.ofInput [] {})
      (afterTurns storedCapture 4 first) := reachable_iff_afterTurns.mpr ⟨_, first, 4, made, rfl⟩
  obtain ⟨⟨behind, fetched⟩, makes⟩ := executes?_eq_some (executed 4 (by decide))
  obtain ⟨⟨behind', fetched'⟩, stores⟩ := executes?_eq_some (executed 10 (by decide))
  have opened : OpenedOn storedCapture (afterTurns storedCapture 5 first) ⟨0⟩ 0
      (afterTurns storedCapture 8 first) :=
    openedOn_afterTurns 5 1 (executed 6 (by decide)) rfl (Stack.peek_eq_ok_iff_live.mpr callee)
      (executed 7 (by decide)) rfl
  have opened' : OpenedOn storedCapture (afterTurns storedCapture 5 first) ⟨0⟩ 0
      (afterTurns storedCapture 15 first) :=
    openedOn_afterTurns 5 8 (executed 13 (by decide)) rfl (Stack.peek_eq_ok_iff_live.mpr callee')
      (executed 14 (by decide)) rfl
  have later : Later storedCapture (afterTurns storedCapture 5 first)
      (afterTurns storedCapture 10 first) := later_afterTurns 5 5
  have runs : RunsClosure storedCapture (afterTurns storedCapture 5 first) ⟨0⟩
      (afterTurns storedCapture 10 first) := ⟨0, _, opened, later_afterTurns 8 2, frame⟩
  have runs' : RunsClosure storedCapture (afterTurns storedCapture 5 first) ⟨0⟩
      (afterTurns storedCapture 15 first) := ⟨0, _, opened', .refl, rfl, rfl, rfl⟩
  have sparing : LaterSparing storedCapture (.field ⟨0⟩ 1) (afterTurns storedCapture 11 first)
      (afterTurns storedCapture 15 first) := by
    refine laterSparing_afterTurns 11 4 fun turns less => ?_
    rw [executed (11 + turns) (by omega)]
    decide +revert
  obtain ⟨_, rfl, _, _, finds⟩ := closures_keep_captures fetched makes
  rw [size] at finds
  obtain ⟨now, leads, _, captures, replaces⟩ := finds _ later runs live
  obtain rfl : #[.scalar 7] = now :=
    (Object.closure.inj (Option.some.inj (object.symm.trans leads))).2
  obtain ⟨value, u, isTopmost, again, _, kept⟩ := replaces 0 _ (by decide) (by decide) fetched'
  obtain rfl : afterTurns storedCapture 11 first = u :=
    (EStateM.Result.ok.inj (stores.symm.trans again)).2
  obtain rfl : .scalar 9 = value :=
    Except.ok.inj ((Stack.peek_eq_ok_iff_live.mpr topmost).symm.trans isTopmost)
  exact ⟨_, _, _, _, _, reachable, ⟨_, fetched⟩, makes, later, runs, live,
    (captures 0 (by decide)).1 _ rfl, ⟨_, fetched'⟩, stores, sparing, runs', live', other,
    kept _ sparing runs' live'⟩

/-- A program whose function takes the caller's frame pointer and the number of arguments from the
stack before it looks at its captured variable. -/
def droppedFrame : Image where
  strings := #[]
  publics := []
  code := (([.enter 2 0, .closure 29 [⟨.globals, 0⟩], .callClosure 0, .stop, .enterClosure 1 0,
    .drop, .drop, .load ⟨.captures, 0⟩, .stop] :
    List Instruction).flatMap Instruction.encode).toArray
  globals := 1

/-- Nothing has been overwritten, but the number of arguments is not on the stack any more. The
closure has its capture, and the function does not find it. -/
theorem captures_out_of_reach_droppedFrame :
    ∃ m n t : Machine Workspace,
      Reachable droppedFrame 16 (Workspace.ofInput [] {}) m ∧
      (∃ behind, fetch droppedFrame m.next = .ok (.closure 29 [⟨.globals, 0⟩], behind)) ∧
      advance droppedFrame m = .ok .next n ∧ n.stack.peek 0 = .ok (.ref ⟨0⟩) ∧
      Later droppedFrame n t ∧ RunsClosure droppedFrame n ⟨0⟩ t ∧
      t.host.heap.objects[0]? = some (.closure 29 #[.scalar 0]) ∧
      ∃ cause, t.load ⟨.captures, 0⟩ = .error cause := by
  obtain ⟨first, made, executed, callee, frame, dead, object⟩ :
      ∃ first, (Machine.start droppedFrame 16 .boundless (Workspace.ofInput [] {})).2 = .ok first ∧
        (∀ turns < 6, executes? droppedFrame (afterTurns droppedFrame turns first) =
          ([.enter 2 0, .closure 29 [⟨.globals, 0⟩], .callClosure 0, .enterClosure 1 0, .drop,
            .drop] : List Instruction)[turns]?) ∧
        (afterTurns droppedFrame 2 first).stack.live.toList[0]? = some (.ref ⟨0⟩) ∧
        SameFrame 0 (afterTurns droppedFrame 4 first) (afterTurns droppedFrame 6 first) ∧
        ¬ (afterTurns droppedFrame 6 first).FrameLive ∧
        (afterTurns droppedFrame 6 first).host.heap.objects[0]? =
          some (.closure 29 #[.scalar 0]) :=
    ⟨_, rfl, by decide +kernel, by decide +kernel, by decide +kernel, by decide +kernel,
      by decide +kernel⟩
  have reachable : Reachable droppedFrame 16 (Workspace.ofInput [] {})
      (afterTurns droppedFrame 1 first) := reachable_iff_afterTurns.mpr ⟨_, first, 1, made, rfl⟩
  obtain ⟨⟨behind, fetched⟩, makes⟩ := executes?_eq_some (executed 1 (by decide))
  have peeked := Stack.peek_eq_ok_iff_live.mpr callee
  have opened : OpenedOn droppedFrame (afterTurns droppedFrame 2 first) ⟨0⟩ 0
      (afterTurns droppedFrame 4 first) :=
    openedOn_afterTurns 2 0 (executed 2 (by decide)) rfl peeked (executed 3 (by decide)) rfl
  have unloaded :
      ∃ cause, (afterTurns droppedFrame 6 first).load ⟨.captures, 0⟩ = .error cause := by
    refine Answer.exists_error_iff.mpr ?_
    rintro ⟨value, loaded⟩
    obtain ⟨_, closure, found, _⟩ := load_capture_eq_ok_iff.mp loaded
    obtain ⟨_, counted, _⟩ := runningClosure_eq_ok_iff.mp found
    exact dead (Stack.get_eq_ok_iff.mp counted).1
  exact ⟨_, _, _, reachable, ⟨_, fetched⟩, makes, peeked, later_afterTurns 2 4,
    ⟨0, _, opened, later_afterTurns 4 2, frame⟩, object, unloaded⟩

end BytecodeMachine.Machine
