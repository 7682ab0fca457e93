import BytecodeMachine.Host.Workspace
import BytecodeMachine.Instruction.Encode
import BytecodeMachine.Proofs.Machine.Correspondence
import BytecodeMachine.Proofs.Machine.History
/-!
# Running a longer image

A program can be linked with more: its image gets more code, more strings, more globals and
other public symbols. What worked before goes on to work. As long as the turns over the first
image are answered, those over the longer one execute the same instructions at the same offsets
and leave the same behind, but for the globals that have been added, which stay zero.

Nothing is said about faults: what is missing in the first image may be there in the longer
one. There is one way in which the longer image can fail where the first one does not, before
any turn: it needs a machine of its own, and the allocator may have no room for the stack or for
the globals of that machine. The allocator may answer differently each time it is asked, so the
two machines are made by two allocators.
-/
namespace BytecodeMachine

open BytecodeMachine.Action

/-- A host does alike what it is asked for twice from one state. This is the case of equal hosts,
for which the correspondence is about images and globals only. -/
theorem Host.alike_eq {σ : Type} [Host σ] (strict : Prop) :
    Host.Alike strict (Eq : σ → σ → Prop) where
  newString _ := simulates_eq _
  newArray _ := simulates_eq _
  newAggregate _ _ := simulates_eq _
  newClosure _ _ := simulates_eq _
  setField _ _ _ := simulates_eq _
  setElement _ _ _ := simulates_eq _
  readNumber := simulates_eq _
  writeNumber _ := simulates_eq _
  print _ := simulates_eq _
  field := by
    rintro host _ rfl object index
    exact Answer.repeats_refl _
  element := by
    rintro host _ rfl container index
    exact Answer.repeats_refl _
  tag := by
    rintro host _ rfl name
    exact Answer.repeats_refl _
  sameString := by
    rintro host _ rfl x y
    exact Answer.repeats_refl _
  length := by
    rintro host _ rfl value
    exact Answer.repeats_refl _
  passes := by
    rintro host _ rfl value pattern
    rfl
  matchesAggregate := by
    rintro host _ rfl value tag arity
    rfl
  matchesArray := by
    rintro host _ rfl value size
    rfl

namespace Machine

variable {σ : Type} [Host σ] {image longer : Image} {capacity : Nat} {host : σ}
  {allocator allocator' : Allocator} {m n : Machine σ}

/-- Turns over a longer image track those over the image, faults apart. -/
theorem advance_simulates_of_extends (extends_ : longer.Extends image) (more : Nat) :
    Simulates False (Corresponds Eq more) (advance (σ := σ) image) (advance longer) := by
  have alike : Comparable (σ := σ) False Eq more longer image :=
    ⟨extends_, False.elim, Host.alike_eq False⟩
  intro m n now
  refine advance_tracks alike now fun object _ => ?_
  rw [now.host]
  exact Answer.repeats_refl _

/-- A machine with more globals, all of them zero. -/
def addGlobals (more : Nat) (m : Machine σ) : Machine σ :=
  { m with globals := m.globals ++ Array.replicate more Value.zero }

omit [Host σ] in
/-- A machine corresponds to itself with more globals: everything else is the same. -/
theorem corresponds_addGlobals (more : Nat) : Corresponds Eq more m (m.addGlobals more) :=
  ⟨rfl, rfl, rfl, rfl, rfl, rfl, rfl⟩

omit [Host σ] in
/-- A machine is made for a longer image exactly if there is room for it. It has more globals and
is the same otherwise: the frame at the bottom is opened on the same empty stack. -/
theorem ofHost_longer (larger : image.globals ≤ longer.globals)
    (made : ofHost image capacity allocator host = .ok m) :
    ofHost longer capacity allocator' host = .ok n ↔
      (allocator'.HasRoom capacity .stack ∧ allocator'.HasRoom longer.globals .globals) ∧
        m.addGlobals (longer.globals - image.globals) = n := by
  obtain ⟨_, _, stack, opened, rfl⟩ := ofHost_eq_ok_iff.mp made
  have added : (⟨stack, Array.replicate longer.globals Value.zero, host, stack.top, 0, none, 0⟩ :
      Machine σ) = addGlobals (longer.globals - image.globals)
        ⟨stack, Array.replicate image.globals Value.zero, host, stack.top, 0, none, 0⟩ := by
    rw [addGlobals, Array.replicate_append_replicate, Nat.add_sub_cancel' larger]
  rw [ofHost_eq_ok_iff, ← added]
  constructor
  · rintro ⟨room, room', _, opened', rfl⟩
    cases opened.symm.trans opened'
    exact ⟨⟨room, room'⟩, rfl⟩
  · rintro ⟨⟨room, room'⟩, rfl⟩
    exact ⟨room, room', stack, opened, rfl⟩

/-- So it is with machines whose hosts are still to be made ready. The capacity has been accepted
for the first machine and the host has been ready for it, so neither can be in the way. -/
theorem start_longer (larger : image.globals ≤ longer.globals)
    (made : (Machine.start image capacity allocator host).2 = .ok m) :
    (Machine.start longer capacity allocator' host).2 = .ok n ↔
      (allocator'.HasRoom capacity .stack ∧ allocator'.HasRoom longer.globals .globals) ∧
        m.addGlobals (longer.globals - image.globals) = n := by
  obtain ⟨accepted, events, ready, prepared, built⟩ := start_eq_ok_iff.mp made
  rw [start_eq_ok_iff, ← ofHost_longer larger built]
  constructor
  · rintro ⟨_, _, _, again, done⟩
    cases prepared.symm.trans again
    exact done
  · exact fun done => ⟨accepted, events, ready, prepared, done⟩

/-- If there is no machine for the longer image, its words were not allocated: everything else that
is needed for it was there for the first machine. -/
theorem start_longer_error {cause : Fault}
    (made : (Machine.start image capacity allocator host).2 = .ok m)
    (refused : (Machine.start longer capacity allocator' host).2 = .error cause) :
    cause.IsAllocation := by
  obtain ⟨accepted, events, ready, prepared, built⟩ := start_eq_ok_iff.mp made
  obtain ⟨_, _, stack, opened, _⟩ := ofHost_eq_ok_iff.mp built
  rw [start_of_prepared prepared, if_neg (Nat.not_lt.mpr accepted)] at refused
  exact ofHost_error opened refused

/-- Machines that correspond go on to correspond as long as the turns of the first are answered. -/
theorem corresponds_afterTurns_of_extends (extends_ : longer.Extends image) {more : Nat}
    (start : Corresponds Eq more m n) {turns : Nat}
    (works : ∀ turn < turns, ∃ flow s, advance image (afterTurns image turn m) = .ok flow s) :
    Corresponds Eq more (afterTurns image turns m) (afterTurns longer turns n) :=
  related_afterTurns start (.inr works) fun _ _ now =>
    advance_simulates_of_extends extends_ more _ _ now

/-- Extending an image does not change what works. A machine for the longer image is made exactly
if its allocator has room for the stack and for the globals, and if it is not made, that is the
reason that is given. As long as the turns of the first machine are answered, the two machines
correspond, the second one reads what the first one reads, and its turn is answered alike. A run
that halts does so over the longer image as well. -/
theorem extended_image_keeps_working (extends_ : longer.Extends image)
    (larger : image.globals ≤ longer.globals)
    (made : (Machine.start image capacity allocator host).2 = .ok m) :
    ((∃ n, (Machine.start longer capacity allocator' host).2 = .ok n) ↔
      allocator'.HasRoom capacity .stack ∧ allocator'.HasRoom longer.globals .globals) ∧
    (∀ cause, (Machine.start longer capacity allocator' host).2 = .error cause →
      cause.IsAllocation) ∧
    ∀ n, (Machine.start longer capacity allocator' host).2 = .ok n →
      (∀ turns, (∀ turn < turns, ∃ flow s,
          advance image (afterTurns image turn m) = .ok flow s) →
        Corresponds Eq (longer.globals - image.globals) (afterTurns image turns m)
          (afterTurns longer turns n) ∧
        (∀ instruction behind,
          fetch image (afterTurns image turns m).next = .ok (instruction, behind) →
          fetch longer (afterTurns longer turns n).next = .ok (instruction, behind)) ∧
        ∀ flow s, advance image (afterTurns image turns m) = .ok flow s →
          ∃ t, advance longer (afterTurns longer turns n) = .ok flow t ∧
            Corresponds Eq (longer.globals - image.globals) s t) ∧
      ∀ turns s, run image turns m = some (.ok () s) →
        ∃ t, run longer turns n = some (.ok () t) ∧
          Corresponds Eq (longer.globals - image.globals) s t := by
  have starts (n : Machine σ) :
      (Machine.start longer capacity allocator' host).2 = .ok n ↔ _ := start_longer larger made
  have simulates := advance_simulates_of_extends (σ := σ) extends_ (longer.globals - image.globals)
  refine ⟨?_, fun cause refused => start_longer_error made refused, ?_⟩
  · constructor
    · rintro ⟨n, done⟩
      exact ((starts n).mp done).1
    · intro room
      exact ⟨_, (starts _).mpr ⟨room, rfl⟩⟩
  intro n done
  obtain ⟨_, rfl⟩ := (starts n).mp done
  -- both machines are new, so the longer image can only have added globals
  have first := corresponds_addGlobals (m := m) (longer.globals - image.globals)
  refine ⟨fun turns works => ?_, fun turns s halted =>
    run_halts_of_simulates simulates first halted⟩
  have now := corresponds_afterTurns_of_extends extends_ first works
  refine ⟨now, fun instruction behind fetched => ?_, fun flow s advanced => ?_⟩
  · rw [now.next]
    exact extends_.fetch fetched
  · exact (simulates _ _ now).of_ok advanced

/-- A program that reads a word and measures the name of its constant. -/
def measuring : Image where
  strings := #[0x6F, 0x6E, 0x65, 0]
  publics := []
  code := (([.readNumber, .store ⟨.globals, 0⟩, .string 0, .length, .binary .add, .stop] :
    List Instruction).flatMap Instruction.encode).toArray
  globals := 1

/-- The program with a function behind it, which has a global and a name of its own. -/
def measuringLonger : Image where
  strings := measuring.strings ++ #[0x74, 0x77, 0x6F, 0]
  publics := [⟨4, 19⟩]
  code := measuring.code ++ (([.enter 2 0, .string 4, .store ⟨.globals, 1⟩, .leave] :
    List Instruction).flatMap Instruction.encode).toArray
  globals := 2

/-- The sum is the same, and the global of the function is still zero when the longer program
stops. -/
theorem extended_image_keeps_working_measuring :
    ∃ m n s t : Machine Workspace,
      (Machine.start measuring 16 .boundless (Workspace.ofInput [0x37, 0x0A] {})).2 = .ok m ∧
      (Machine.start measuringLonger 16 .boundless (Workspace.ofInput [0x37, 0x0A] {})).2 = .ok n ∧
      advance measuring (afterTurns measuring 5 m) = .ok .halt s ∧
      advance measuringLonger (afterTurns measuringLonger 5 n) = .ok .halt t ∧
      s.stack.live[0]? = some (.scalar 10) ∧ s.globals = #[.scalar 7] ∧
      Corresponds Eq 1 s t := by
  obtain ⟨m, made, works, halts, sum⟩ :
      ∃ m, (Machine.start measuring 16 .boundless (Workspace.ofInput [0x37, 0x0A] {})).2 = .ok m ∧
        (∀ turn < 5, (advance measuring).run' (afterTurns measuring turn m) = some .next) ∧
        (advance measuring).run' (afterTurns measuring 5 m) = some .halt ∧
        (afterTurns measuring 6 m).stack.live[0]? = some (.scalar 10) ∧
        (afterTurns measuring 6 m).globals = #[.scalar 7] :=
    ⟨_, rfl, by decide +kernel, by decide +kernel, by decide +kernel, by decide +kernel⟩
  have extends_ : measuringLonger.Extends measuring := ⟨⟨_, rfl⟩, ⟨_, rfl⟩⟩
  obtain ⟨made', _, keeps⟩ := extended_image_keeps_working extends_ (by decide) made
  obtain ⟨n, done⟩ := made'.mpr
    ⟨Allocator.boundless_hasRoom (by decide), Allocator.boundless_hasRoom (by decide)⟩
  obtain ⟨s, halted⟩ := run'_eq_some_iff.mp halts
  rw [afterTurns_of_ok halted] at sum
  obtain ⟨_, _, answers⟩ := (keeps n done).1 5 fun turn sooner =>
    ⟨.next, run'_eq_some_iff.mp (works turn sooner)⟩
  obtain ⟨t, halted', now⟩ := answers .halt s halted
  exact ⟨m, n, s, t, made, done, halted, halted', sum.1, sum.2, now⟩

/-- A program that stops at once. -/
def stopping : Image := { strings := #[], publics := [], code := #[0xFF], globals := 0 }

/-- The program with more globals than the address space has room for. -/
def stoppingCrowded : Image := { stopping with globals := 9223372036854775808 }

/-- The longer image needs a machine of its own, and there is none if its globals cannot be
allocated. So many do not fit the address space, so no allocator at all has room for them. -/
theorem extended_image_refused_stopping :
    stoppingCrowded.Extends stopping ∧ stopping.globals ≤ stoppingCrowded.globals ∧
      ∃ m s : Machine Workspace,
        (Machine.start stopping 16 .boundless (Workspace.ofInput [] {})).2 = .ok m ∧
        advance stopping m = .ok .halt s ∧
        ¬ ∃ allocator n,
          (Machine.start stoppingCrowded 16 allocator (Workspace.ofInput [] {})).2 = .ok n := by
  have larger : stopping.globals ≤ stoppingCrowded.globals := by decide
  refine ⟨⟨⟨#[], rfl⟩, ⟨#[], rfl⟩⟩, larger, ?_⟩
  obtain ⟨m, made, halts⟩ :
      ∃ m, (Machine.start stopping 16 .boundless (Workspace.ofInput [] {})).2 = .ok m ∧
        (advance stopping).run' m = some .halt := ⟨_, rfl, by decide +kernel⟩
  obtain ⟨s, halted⟩ := run'_eq_some_iff.mp halts
  refine ⟨m, s, made, halted, ?_⟩
  rintro ⟨allocator, n, done⟩
  obtain ⟨⟨_, addressable, _⟩, _⟩ := (start_longer larger made).mp done
  exact absurd addressable (by decide)

/-- Far fewer globals are refused by an allocator that has little room. -/
example : (Machine.start { stopping with globals := 2147483647 } 16
    ⟨fun count _ => count ≤ 1048576⟩ (Workspace.ofInput [] {})).2 =
      .error (.during (.allocating 2147483647 .globals) (.machine .outOfMemory)) := rfl

end Machine

end BytecodeMachine
