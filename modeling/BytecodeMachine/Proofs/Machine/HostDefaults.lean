import BytecodeMachine.Host.Workspace
import BytecodeMachine.Instruction.Encode
import BytecodeMachine.Proofs.Machine.Correspondence
import BytecodeMachine.Proofs.Size
/-!
# The defaults of a host

A host may leave some requests to defaults, which answer them through other requests. For a
workspace the defaults answer what the workspace answers itself: getting ready changes nothing,
words are told apart by their tags, and the entry of a closure is its field zero. A machine
around the workspace and one around the same workspace behind the defaults are the same turn by
turn.

There is one exception. The default takes field zero of whatever object is called, so an array
or an aggregate that starts with an address passes for a closure, while the workspace refuses
it. Up to the first such call nothing differs.
-/
namespace BytecodeMachine

open BytecodeMachine.Action

variable {α : Type} {strict : Prop}

namespace Workspace

/-- The defaults stand before this workspace. -/
def Wraps (host : Workspace) (plain : Plain) : Prop := Plain.mk host = plain

namespace Plain

/-- What is done inside the wrapper is done to the workspace that it wraps. -/
theorem simulates_lift (action : Action Workspace α) :
    Simulates strict Wraps action (lift action) := by
  rintro host _ rfl
  simp only [Tracks, Ends, lift]
  cases action host with
  | ok a host => exact ⟨_, rfl, rfl⟩
  | error cause host => exact fun _ => ⟨_, rfl, rfl⟩

/-- Behind the defaults everything is answered alike that is not left to them. What is left to them
is answered alike as well, as the defaults come down to the same look at the heap. -/
theorem alike_wraps : Host.Alike strict Wraps where
  newString _ := simulates_lift _
  newArray _ := simulates_lift _
  newAggregate _ _ := simulates_lift _
  newClosure _ _ := simulates_lift _
  setField _ _ _ := simulates_lift _
  setElement _ _ _ := simulates_lift _
  readNumber := simulates_lift _
  writeNumber _ := simulates_lift _
  print _ := simulates_lift _
  field := by
    rintro host _ rfl object index
    exact Answer.repeats_refl _
  element := by
    rintro host _ rfl container index
    exact Answer.repeats_refl _
  tag := by
    rintro host _ rfl name
    exact Answer.repeats_refl _
  sameString := by
    rintro host _ rfl x y
    exact Answer.repeats_refl _
  length := by
    rintro host _ rfl value
    exact Answer.repeats_refl _
  passes := by
    rintro host _ rfl value pattern
    cases pattern <;> rfl
  matchesAggregate := by
    rintro host _ rfl value tag arity
    rfl
  matchesArray := by
    rintro host _ rfl value size
    rfl

end Plain

end Workspace

namespace Machine

variable {image : Image} {capacity : Nat} {host : Workspace}

/-- The address of a closure is field zero of it. An entry that is no number is none either way,
and one that is comes back from the number that the default makes of it. -/
theorem entryAddress_plain {object : Ref}
    (closed : ∀ found, host.heap.get object = .ok found → found.kind = .closure) :
    entryAddress object (Workspace.Plain.mk host) = entryAddress object host := by
  change (do
      let entry ← (do
        let number ← (← host.heap.field object 0).expectScalar
        if number < 0 then throw (.heap (.negativeEntry number))
        return number.toInt.toNat : Answer Nat)
      int32OfNat entry : Answer Int32) =
    (do int32OfNat (← host.heap.entry object))
  unfold Heap.field Heap.entry
  cases known : host.heap.get object with
  | error cause => rfl
  | ok found =>
    cases found with
    | closure entry captured =>
      -- the default makes a number of the entry before the call does
      by_cases fits : entry < 2147483648
      · have number : int32OfNat entry = .ok (Int32.ofNat entry) :=
          int32OfNat_eq_ok_iff.mpr ⟨fits, rfl⟩
        have positive : ¬ Int32.ofNat entry < 0 := Int32.not_lt.mpr (ofNat_nonneg fits)
        simp only [number, Except.map, Value.expectScalar, bind, Except.bind, positive, if_false,
          pure, Except.pure, toNat_ofNat fits]
      · simp only [int32OfNat, fits, if_false, Except.map, bind, Except.bind]
    | string bytes => cases closed _ known
    | array elements => cases closed _ known
    | aggregate tag fields => cases closed _ known

/-- The next turn calls an object that is not a closure. -/
def miscalls (image : Image) (m : Machine Workspace) : Bool :=
  match callee? image m with
  | some object =>
    match m.host.heap.get object with
    | .ok found => found.kind != ObjectKind.closure
    | .error _ => false
  | none => false

/-- If no object but a closure is about to be called, then what is called is a closure. Only calls
ask an object for its entry, so this is all that fairness has to say. -/
theorem closed_of_not_miscalls {m : Machine Workspace} {object : Ref}
    (fair : miscalls image m = false) (called : callee? image m = some object) (found : Object)
    (known : m.host.heap.get object = .ok found) : found.kind = .closure := by
  simpa [miscalls, called, known] using fair

/-- A turn behind the defaults tracks a turn of the workspace that calls nothing but closures. -/
theorem advance_tracks_of_wraps {m : Machine Workspace} {n : Machine Workspace.Plain}
    (now : Corresponds Workspace.Wraps 0 m n) (fair : miscalls image m = false) :
    Tracks strict (Corresponds Workspace.Wraps 0) (advance image) (advance image) m n := by
  have alike : Comparable strict Workspace.Wraps 0 image image :=
    ⟨Image.extends_refl image, fun _ => ⟨rfl, rfl⟩, Workspace.Plain.alike_wraps⟩
  refine advance_tracks alike now fun object called => ?_
  rw [← now.host, entryAddress_plain (closed_of_not_miscalls fair called)]
  exact Answer.repeats_refl _

/-- Behind the defaults a machine is made alike by one allocator, and whichever allocators have made
the two, it does the same turn by turn, also when it faults, up to the first turn that calls an
object that is not a closure. -/
theorem host_defaults_agree (host : Workspace) :
    (∀ allocator, (Machine.start image capacity allocator (Workspace.Plain.mk host)).2 =
      (Machine.start image capacity allocator host).2.map (mapHost Workspace.Plain.mk)) ∧
    ∀ allocator allocator' m n, (Machine.start image capacity allocator host).2 = .ok m →
      (Machine.start image capacity allocator' (Workspace.Plain.mk host)).2 = .ok n → ∀ turns,
        (∀ turn < turns, miscalls image (afterTurns image turn m) = false) →
        afterTurns image turns n = (afterTurns image turns m).mapHost Workspace.Plain.mk ∧
        (miscalls image (afterTurns image turns m) = false →
          advance image (afterTurns image turns n) =
            mapLeft Workspace.Plain.mk (advance image (afterTurns image turns m))) := by
  have looks (s : Machine Workspace) (t : Machine Workspace.Plain)
      (now : Corresponds Workspace.Wraps 0 s t) :
      s.mapHost Workspace.Plain.mk = t.mapHost id := now.mapHost_eq fun _ _ wraps => wraps
  refine ⟨fun allocator => ?_, fun _ _ m n made made' turns fair => ?_⟩
  · have starts : (Machine.start image capacity allocator (Workspace.Plain.mk host)).2.map
          (mapHost id) =
        (Machine.start image capacity allocator host).2.map (mapHost Workspace.Plain.mk) :=
      start_mapHost_eq rfl rfl rfl
    rwa [mapHost_id, Except.map_id] at starts
  · have started : Corresponds Workspace.Wraps 0 m n := start_corresponds rfl rfl rfl made made'
    have now : Corresponds Workspace.Wraps 0 (afterTurns image turns m)
        (afterTurns image turns n) :=
      related_afterTurns started (.inl trivial) fun turn sooner before =>
        advance_tracks_of_wraps before (fair turn sooner)
    refine ⟨(looks _ _ now).symm, fun next => ?_⟩
    have ended := mapLeft_eq_of_tracks looks (advance_tracks_of_wraps now next)
    rw [ended, mapLeft_id]

/-- A program that makes a closure, calls it and stops. -/
def closing : Image where
  strings := #[]
  publics := []
  code := (([.closure 15 [], .callClosure 0, .stop, .enterClosure 0 0, .constant 7, .leave] :
    List Instruction).flatMap Instruction.encode).toArray
  globals := 0

/-- The closure is entered through its field zero and gives its answer. Nothing but closures is
called on the way, which is checked turn by turn. -/
theorem host_defaults_agree_closing :
    ∃ (m : Machine Workspace) (n : Machine Workspace.Plain) (s : Machine Workspace),
      (Machine.start closing 16 .boundless (Workspace.ofInput [] {})).2 = .ok m ∧
      (Machine.start closing 16 .boundless (Workspace.Plain.mk (Workspace.ofInput [] {}))).2 =
        .ok n ∧
      (callee? closing (afterTurns closing 1 m)).isSome ∧
      advance closing (afterTurns closing 5 m) = .ok .halt s ∧
      advance closing (afterTurns closing 5 n) = .ok .halt (s.mapHost Workspace.Plain.mk) ∧
      s.stack.live[0]? = some (.scalar 7) := by
  obtain ⟨m, made, calls, fair, halts, answer⟩ :
      ∃ m, (Machine.start closing 16 .boundless (Workspace.ofInput [] {})).2 = .ok m ∧
        (callee? closing (afterTurns closing 1 m)).isSome ∧
        (∀ turn < 6, miscalls closing (afterTurns closing turn m) = false) ∧
        (advance closing).run' (afterTurns closing 5 m) = some .halt ∧
        (afterTurns closing 6 m).stack.live[0]? = some (.scalar 7) :=
    ⟨_, rfl, by decide +kernel, by decide +kernel, by decide +kernel, by decide +kernel⟩
  obtain ⟨n, made'⟩ : ∃ n, (Machine.start closing 16 .boundless
      (Workspace.Plain.mk (Workspace.ofInput [] {}))).2 = .ok n := ⟨_, rfl⟩
  obtain ⟨s, halted⟩ := run'_eq_some_iff.mp halts
  obtain ⟨_, agrees⟩ := (host_defaults_agree (Workspace.ofInput [] {})).2 _ _ m n made made' 5
    fun turn sooner => fair turn (Nat.lt_succ_of_lt sooner)
  have halted' := agrees (fair 5 (by decide))
  rw [halted] at halted'
  rw [afterTurns_of_ok halted] at answer
  exact ⟨m, n, s, made, made', calls, halted, halted', answer⟩

/-- A program that calls an array whose first element is an address. -/
def callingArray : Image where
  strings := #[]
  publics := []
  code := (([.constant 0, .array 1, .callClosure 0] : List Instruction).flatMap
    Instruction.encode).toArray
  globals := 0

/-- The defaults call the array, the workspace refuses to. -/
example : ∃ m n, (Machine.start callingArray 16 .boundless (Workspace.ofInput [] {})).2 = .ok m ∧
    (Machine.start callingArray 16 .boundless (Workspace.Plain.mk (Workspace.ofInput [] {}))).2 =
      .ok n ∧
    miscalls callingArray (afterTurns callingArray 2 m) = true ∧
    (advance callingArray).run' (afterTurns callingArray 2 m) = none ∧
    (advance callingArray).run' (afterTurns callingArray 2 n) = some .next :=
  ⟨_, _, rfl, rfl, by decide +kernel, by decide +kernel, by decide +kernel⟩

end Machine

end BytecodeMachine
