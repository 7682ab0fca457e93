import BytecodeMachine.Proofs.Image.Extension
import BytecodeMachine.Proofs.Machine.History
import BytecodeMachine.Proofs.Machine.Progress
/-!
# Corresponding machines

Two machines correspond if they have the same stack and the same registers, if the globals of
the second one are those of the first followed by zeros, and if their hosts are related. The
images that they run may differ, and so may the kinds of their hosts.

A turn of the second machine tracks a turn of the first if its image extends the other one and
the hosts answer alike. Where faults are compared as well, nothing may go on behind the end of
an area, since a fault tells the size of the area that it is about.

Where a closure starts is the one request that related hosts need not answer alike: it is left
to those who compare, for the closure that is about to be called.
-/
namespace BytecodeMachine

open BytecodeMachine.Action

variable {σ τ α : Type} {strict : Prop} {H : σ → τ → Prop}

/-- Hosts that do alike what they are asked for, from states that are related. -/
structure Host.Alike [Host σ] [Host τ] (strict : Prop) (H : σ → τ → Prop) : Prop where
  newString : ∀ bytes, Simulates strict H (Host.newString bytes) (Host.newString bytes)
  newArray : ∀ elements, Simulates strict H (Host.newArray elements) (Host.newArray elements)
  newAggregate : ∀ tag fields,
    Simulates strict H (Host.newAggregate tag fields) (Host.newAggregate tag fields)
  newClosure : ∀ entry captured,
    Simulates strict H (Host.newClosure entry captured) (Host.newClosure entry captured)
  setField : ∀ object index value,
    Simulates strict H (Host.setField object index value) (Host.setField object index value)
  setElement : ∀ container index value, Simulates strict H
    (Host.setElement container index value) (Host.setElement container index value)
  readNumber : Simulates strict H Host.readNumber Host.readNumber
  writeNumber : ∀ number, Simulates strict H (Host.writeNumber number) (Host.writeNumber number)
  print : ∀ value, Simulates strict H (Host.print value) (Host.print value)
  field : ∀ s t, H s t → ∀ object index,
    Answer.Repeats strict (Host.field object index s) (Host.field object index t)
  element : ∀ s t, H s t → ∀ container index,
    Answer.Repeats strict (Host.element container index s) (Host.element container index t)
  tag : ∀ s t, H s t → ∀ name, Answer.Repeats strict (Host.tag name s) (Host.tag name t)
  sameString : ∀ s t, H s t → ∀ x y,
    Answer.Repeats strict (Host.sameString x y s) (Host.sameString x y t)
  length : ∀ s t, H s t → ∀ value,
    Answer.Repeats strict (Host.length value s) (Host.length value t)
  passes : ∀ s t, H s t → ∀ value pattern,
    Machine.passes t value pattern = Machine.passes s value pattern
  matchesAggregate : ∀ s t, H s t → ∀ value tag arity,
    Host.matchesAggregate value tag arity t = Host.matchesAggregate value tag arity s
  matchesArray : ∀ s t, H s t → ∀ value size,
    Host.matchesArray value size t = Host.matchesArray value size s

namespace Machine

variable {more : Nat} {image longer : Image} {m : Machine σ} {n : Machine τ}

/-- The same stack and registers, related hosts, and as many more globals, all of them zero. -/
structure Corresponds (H : σ → τ → Prop) (more : Nat) (m : Machine σ) (n : Machine τ) : Prop where
  stack : n.stack = m.stack
  globals : n.globals = m.globals ++ Array.replicate more Value.zero
  host : H m.host n.host
  frame : n.frame = m.frame
  next : n.next = m.next
  line : n.line = m.line
  depth : n.depth = m.depth

/-- Work on the stack is done on the stack and put back, also when it faults. In this form both
sides of a correspondence are taken apart at once. -/
theorem onStack_eq_putBack (action : Action Stack α) (m : Machine σ) :
    onStack action m = putBack (fun stack => { m with stack }) (action m.stack) := by
  simp only [onStack]
  cases action m.stack <;> rfl

/-- The same of work on the host. -/
theorem onHost_eq_putBack (action : Action σ α) (m : Machine σ) :
    onHost action m = putBack (fun host => { m with host }) (action m.host) := by
  simp only [onHost]
  cases action m.host <;> rfl

/-- What is done on the stack is done alike. -/
theorem simulates_onStack (action : Action Stack α) :
    Simulates strict (Corresponds H more) (onStack action) (onStack action) := by
  intro m n now
  exact (simulates_eq action _ _ now.stack.symm).within (onStack_eq_putBack action m)
    (onStack_eq_putBack action n) fun _ _ same => { now with stack := same.symm }

/-- Hosts that do the same from related states do it inside corresponding machines, where
everything else stays. -/
theorem simulates_onHost {action : Action σ α} {action' : Action τ α}
    (alike : Simulates strict H action action') :
    Simulates strict (Corresponds H more) (onHost action) (onHost action') := by
  intro m n now
  exact (alike _ _ now.host).within (onHost_eq_putBack action m) (onHost_eq_putBack action' n)
    fun _ _ related => { now with host := related }

/-- The stacks are the same, so the same happens to both. -/
theorem simulates_push (value : Value) :
    Simulates strict (Corresponds H more) (push value) (push value) := simulates_onStack _

/-- And the word taken is the same one. -/
theorem simulates_pop : Simulates strict (Corresponds H more) pop pop := simulates_onStack _

/-- What is seen on the stack is the same. -/
theorem simulates_observeStack (look : Stack → Answer α) :
    Simulates strict (Corresponds H more) (observe fun m => look m.stack)
      (observe fun n => look n.stack) := by
  refine simulates_observe fun m n now => ?_
  rw [now.stack]
  exact Answer.repeats_refl _

/-- What related hosts answer alike, corresponding machines are told alike. -/
theorem simulates_askHost {look : σ → Answer α} {look' : τ → Answer α}
    (alike : ∀ s t, H s t → Answer.Repeats strict (look s) (look' t)) :
    Simulates strict (Corresponds H more) (askHost look) (askHost look') :=
  simulates_observe fun _ _ now => alike _ _ now.host

/-- Both jump to the same offset. -/
theorem simulates_jumpTo (offset : Nat) :
    Simulates strict (Corresponds H more) (jumpTo offset) (jumpTo offset) :=
  simulates_modify fun _ _ now => { now with next := rfl }

/-- Both have the frame pointer moved to the same word. -/
theorem simulates_setFrame (index : Nat) :
    Simulates strict (Corresponds H more) (setFrame index) (setFrame index) :=
  simulates_modify fun _ _ now => { now with frame := rfl }

/-! ### Frames -/

/-- An entry writes the frame pointer, which is the same on both sides, and zeros. Nothing it does
depends on the hosts or on the globals. -/
theorem simulates_enter (locals : Nat) :
    Simulates strict (Corresponds H more) (enter locals) (enter locals) := by
  refine Simulates.afterGet fun m n now => ?_
  rw [now.frame]
  refine (simulates_push _).bind fun _ => Simulates.afterGet fun m n now => ?_
  rw [now.stack]
  exact (simulates_setFrame _).bind fun _ => simulates_onStack _

/-- Nor does a call: it works on the stack and on the registers. The return address that it pushes
is the next offset, which both machines have. -/
theorem simulates_call (entry arguments dropped : Nat) :
    Simulates strict (Corresponds H more) (call entry arguments dropped)
      (call entry arguments dropped) := by
  refine (simulates_onStack _).bind fun _ => Simulates.afterGet fun m n now => ?_
  rw [now.next]
  refine (simulates_answer (Answer.repeats_refl _)).bind fun _ => (simulates_push _).bind fun _ =>
    (simulates_answer (Answer.repeats_refl _)).bind fun _ => (simulates_push _).bind fun _ => ?_
  refine simulates_modify fun m n now => { now with next := rfl, depth := ?_ }
  exact congrArg (· + 1) now.depth

/-- The saved frame pointer is checked against the size of the stack, which is the same. -/
theorem simulates_popLink : Simulates strict (Corresponds H more) popLink popLink := by
  refine simulates_pop.bind fun word => (simulates_answer (Answer.repeats_refl _)).bind
    fun pointer => Simulates.afterGet fun m n now => ?_
  rw [now.stack]
  split
  · exact simulates_pure _
  · exact simulates_throw _

/-- The number of arguments is the same word, and both refuse it if it is negative. -/
theorem simulates_popArgumentCount :
    Simulates strict (Corresponds H more) popArgumentCount popArgumentCount := by
  refine simulates_pop.bind fun word => (simulates_answer (Answer.repeats_refl _)).bind
    fun count => ?_
  split
  · exact (simulates_throw _).bind fun _ => simulates_pure _
  · exact simulates_pure _

/-- The address to return to is the same word, read as the same number. -/
theorem simulates_popReturn : Simulates strict (Corresponds H more) popReturn popReturn :=
  simulates_pop.bind fun _ => simulates_answer (Answer.repeats_refl _)

/-! ### Variables -/

namespace Corresponds

variable (now : Corresponds H more m n)
include now

/-- The number of arguments is read from the stack at the frame pointer. -/
theorem argumentCount : n.argumentCount = m.argumentCount := by
  simp only [Machine.argumentCount, now.stack, now.frame]

/-- The running closure lies under the arguments, and is found there alike. -/
theorem runningClosure : n.runningClosure = m.runningClosure := by
  simp only [Machine.runningClosure, now.argumentCount, now.stack, now.frame]

/-- The longer machine has more globals, by as many as have been added. -/
theorem size_globals : n.globals.size = m.globals.size + more := by
  rw [now.globals, Array.size_append, Array.size_replicate]

variable (bounded : strict → more = 0)
include bounded

/-- A variable is at the same place. Only a global that the first machine has not may be at a
place in the second one. -/
theorem place (name : Variable) : Answer.Repeats strict (m.place name) (n.place name) := by
  obtain ⟨storage, index⟩ := name
  unfold Machine.place
  by_cases negative : index < 0
  · simp only [negative, if_true]
    cases storage <;> exact Answer.repeats_refl _
  · simp only [negative, if_false]
    cases storage with
    | globals =>
      dsimp only
      by_cases inside : index.toInt.toNat < m.globals.size
      · rw [if_pos inside, if_pos (by rw [now.size_globals]; omega)]
        exact Answer.repeats_refl _
      · rw [if_neg inside]
        rintro (same | ⟨place, ⟨⟩⟩)
        rw [now.size_globals, bounded same, Nat.add_zero, if_neg inside]
    | locals =>
      rw [now.frame]
      exact Answer.repeats_refl _
    | arguments =>
      rw [now.frame]
      exact Answer.repeats_refl _
    | captures =>
      rw [now.runningClosure]
      exact Answer.repeats_refl _

/-- A global of the shorter machine is written in both, and what has been added stays zero. An
index outside is outside of both if none were added, and only then are faults compared. -/
theorem global (index : Nat) (value : Value) :
    Tracks strict (Corresponds H more) (writeGlobal index value) (writeGlobal index value) m n := by
  simp only [Tracks, Ends, writeGlobal]
  by_cases inside : index < m.globals.size
  · rw [if_pos inside, if_pos (by rw [now.size_globals]; omega)]
    refine ⟨_, rfl, { now with globals := ?_ }⟩
    rw [now.globals, Array.setIfInBounds_append_left inside]
  · rw [if_neg inside]
    intro same
    obtain rfl := bounded same
    rw [now.size_globals, Nat.add_zero, if_neg inside]
    exact ⟨_, rfl, now⟩

variable [Host σ] [Host τ] (hosts : Host.Alike strict H)
include hosts

/-- A place is read alike: globals of the shorter machine are the first ones of the longer, the
stacks are the same, and fields are asked of related hosts. -/
theorem readSlot (place : Slot) :
    Answer.Repeats strict (m.readSlot place) (n.readSlot place) := by
  cases place with
  | global index =>
    intro compared
    simp only [Machine.readSlot, now.globals] at compared ⊢
    by_cases inside : index < m.globals.size
    · rw [Array.getElem?_append_left inside]
    · obtain same | ⟨value, found⟩ := compared
      · rw [bounded same, Array.replicate_zero, Array.append_empty]
      · rw [Array.getElem?_eq_none (Nat.le_of_not_lt inside)] at found
        cases found
  | stack index =>
    simp only [Machine.readSlot, now.stack]
    exact Answer.repeats_refl _
  | field object index => exact hosts.field _ _ now.host object index

/-- A variable is looked up and then read, and both sides agree on either. -/
theorem load (name : Variable) : Answer.Repeats strict (m.load name) (n.load name) :=
  (now.place bounded name).bind fun _ => (now.readSlot bounded hosts _).during _

/-- Variables are loaded one after the other, by induction on the list. -/
theorem loadAll (names : List Variable) :
    Answer.Repeats strict (Machine.loadAll names m) (Machine.loadAll names n) := by
  induction names with
  | nil => exact Answer.repeats_refl _
  | cons name rest later =>
    exact (now.load bounded hosts name).bind fun _ => later.bind fun _ => Answer.repeats_refl _

end Corresponds

/-! ### Instructions -/

/-- What it takes for turns to track one another: the image goes on behind the other one, the
hosts are alike, and faults are compared only where nothing goes on. -/
structure Comparable [Host σ] [Host τ] (strict : Prop) (H : σ → τ → Prop) (more : Nat)
    (longer image : Image) : Prop where
  extends_ : longer.Extends image
  shared : strict → longer = image ∧ more = 0
  hosts : Host.Alike strict H

namespace Comparable

variable [Host σ] [Host τ] (alike : Comparable strict H more longer image)
include alike

/-- If faults are to be the same then nothing has been added. -/
theorem no_more (same : strict) : more = 0 := (alike.shared same).2

/-- What is found in the image is found in the longer one. -/
theorem finds (look : Image → Answer α)
    (found : ∀ a, look image = .ok a → look longer = .ok a) :
    Answer.Repeats strict (look image) (look longer) := by
  rintro (same | ⟨a, known⟩)
  · rw [(alike.shared same).1]
  · exact (found a known).trans known.symm

/-- A string is looked up alike, since the longer image has all the shorter one has. -/
theorem stringAt (offset : Int32) :
    Answer.Repeats strict (image.stringAt offset) (longer.stringAt offset) :=
  alike.finds (·.stringAt offset) fun _ found => alike.extends_.stringAt found

/-- So is the target of a jump. -/
theorem target (address : Int32) :
    Answer.Repeats strict (Machine.target image address) (Machine.target longer address) :=
  alike.finds (Machine.target · address) fun _ found => alike.extends_.target found

/-- A place is written alike, by cases on where it is. -/
theorem writeSlot (place : Slot) (value : Value) :
    Simulates strict (Corresponds H more) (Machine.writeSlot place value)
      (Machine.writeSlot place value) := by
  cases place with
  | global index => exact fun _ _ now => now.global alike.no_more index value
  | stack index => exact simulates_onStack _
  | field object index => exact simulates_onHost (alike.hosts.setField object index value)

/-- A word that is a place is written to, and any other is refused by both for the same reason. -/
theorem storeThrough (target value : Value) :
    Simulates strict (Corresponds H more) (Machine.storeThrough target value)
      (Machine.storeThrough target value) := by
  cases target with
  | slot place => exact alike.writeSlot place value
  | scalar number => exact simulates_throw _
  | ref object => exact simulates_throw _

/-- A variable is looked up alike and then written alike. -/
theorem store (name : Variable) (value : Value) :
    Simulates strict (Corresponds H more) (Machine.store name value) (Machine.store name value) :=
  (simulates_observe fun _ _ now => now.place alike.no_more name).bind fun _ =>
    (alike.writeSlot _ _).during _

/-- The words taken are the same on both sides. If the middle one is a scalar the hosts are asked
to write, and related hosts do it alike; otherwise both store through a place. -/
theorem storeElement :
    Simulates strict (Corresponds H more) Machine.storeElement Machine.storeElement := by
  refine simulates_pop.bind fun value => simulates_pop.bind fun target => ?_
  cases target with
  | scalar index =>
    exact simulates_pop.bind fun container =>
      (simulates_onHost (alike.hosts.setElement container index value)).bind fun _ =>
        simulates_push _
  | ref object => exact (alike.storeThrough _ _).bind fun _ => simulates_push _
  | slot place => exact (alike.storeThrough _ _).bind fun _ => simulates_push _

/-- Patterns are asked of the hosts, which answer alike. Comparing strings takes two words, and a
host may refuse to do so; every other pattern takes one word and is always answered. -/
theorem test (pattern : Pattern) :
    Simulates strict (Corresponds H more) (Machine.test pattern) (Machine.test pattern) := by
  cases pattern with
  | sameString =>
    refine simulates_pop.bind fun y => simulates_pop.bind fun x => ?_
    exact (simulates_askHost fun s t now => alike.hosts.sameString s t now x y).bind fun _ =>
      simulates_push _
  | _ =>
    refine simulates_pop.bind fun value => Simulates.afterGet fun m n now => ?_
    rw [alike.hosts.passes _ _ now.host]
    exact simulates_push _

/-- The word taken and its test are the same, and so is where the jump leads. -/
theorem branch (address : Int32) (fit : Int32 → Bool) :
    Simulates strict (Corresponds H more) (Machine.branch image address fit)
      (Machine.branch longer address fit) := by
  refine simulates_pop.bind fun word => (simulates_answer (Answer.repeats_refl _)).bind
    fun number => ?_
  split
  · exact (simulates_answer (alike.target address)).bind fun _ => simulates_jumpTo _
  · exact simulates_pure _

/-- The linkage is the same, word by word, so both return to the same offset or both stop. That
offset is checked against the code, where the longer image finds what the shorter one finds. -/
theorem leave :
    Simulates strict (Corresponds H more) (Machine.leave image) (Machine.leave longer) := by
  refine simulates_pop.bind fun result => Simulates.afterGet fun m n now => ?_
  rw [now.frame]
  refine (simulates_onStack _).bind fun _ => simulates_popLink.bind fun _ =>
    simulates_popArgumentCount.bind fun _ => simulates_popReturn.bind fun address =>
      (simulates_onStack _).bind fun _ => (simulates_push _).bind fun _ =>
        (simulates_setFrame _).bind fun _ => ?_
  split
  · exact simulates_pure _
  · refine (simulates_answer ((alike.target address).during _)).bind fun offset =>
      (simulates_modify fun m n now => { now with next := rfl, depth := ?_ }).bind fun _ =>
        simulates_pure _
    exact congrArg (· - 1) now.depth

end Comparable

/-- The words gathered are the same ones, and related hosts make of them what they make alike. -/
theorem simulates_gather (size : Nat) {make : Array Value → Action σ Ref}
    {make' : Array Value → Action τ Ref}
    (alike : ∀ words, Simulates strict H (make words) (make' words)) :
    Simulates strict (Corresponds H more) (gather size make) (gather size make') :=
  (simulates_onStack _).bind fun _ => (simulates_observeStack (Stack.window size)).bind fun words =>
    (simulates_onHost (alike words)).bind fun _ => (simulates_onStack _).bind fun _ =>
      simulates_push _

/-- Where a closure starts, as the address that a call of it goes to. -/
def entryAddress [Host σ] (object : Ref) (host : σ) : Answer Int32 := do
  int32OfNat (← Host.entry object host)

/-- The reference that the next turn calls as a closure, if it calls one. -/
def callee? (image : Image) (m : Machine σ) : Option Ref :=
  match fetch image m.next with
  | .ok (.callClosure arguments, _) =>
    match (do m.stack.peek (← count arguments)) with
    | .ok (.ref object) => some object
    | _ => none
  | _ => none

/-- The object that a call of a closure is about to enter, once the instruction, the number of
arguments and the word under them are known. -/
theorem callee?_eq_some {image : Image} {m : Machine σ} {arguments : Int32} {behind size : Nat}
    {object : Ref} (fetched : fetch image m.next = .ok (.callClosure arguments, behind))
    (counted : count arguments = .ok size) (peeked : m.stack.peek size = .ok (.ref object)) :
    callee? image m = some object := by
  simp only [callee?, fetched, counted, bind, Except.bind, peeked]

variable [Host σ] [Host τ]

/-- The entry of a closure and the address made of it may be asked for at once. No state has
changed between the two, so a host that knows the address as a whole can be compared with one that
makes it of the entry. -/
theorem callClosure_eq (image : Image) (arguments : Nat) :
    callClosure (σ := σ) image arguments = (do
      let word ← observe fun m => m.stack.peek arguments
      let object ← answer (Answer.during .calledWord word.expectRef)
      let address ← askHost (entryAddress object)
      let offset ← answer (target image address)
      call offset arguments (arguments + 1)) := by
  unfold callClosure
  refine bind_congr fun word => bind_congr fun object => ?_
  -- the host is asked in the state where the address is made, since asking changes nothing
  funext m
  simp only [bind, EStateM.bind, askHost, observe, answer, entryAddress, Except.bind]
  cases Host.entry object m.host with
  | error cause => rfl
  | ok entry =>
    dsimp only
    cases int32OfNat entry <;> rfl

section

variable (alike : Comparable strict H more longer image) (now : Corresponds H more m n)
include alike now

/-- Calling a closure is tracked if the hosts know the same entry for the one that is called.
Everything else about the call is on the stack and in the images. This is asked of one object, as
hosts need not agree on those that are never called. -/
theorem callClosure_tracks {arguments : Nat}
    (entries : ∀ object, m.stack.peek arguments = .ok (.ref object) →
      Answer.Repeats strict (entryAddress object m.host) (entryAddress object n.host)) :
    Tracks strict (Corresponds H more) (callClosure image arguments)
      (callClosure longer arguments) m n := by
  rw [callClosure_eq, callClosure_eq]
  have peeks : Answer.Repeats strict (m.stack.peek arguments) (n.stack.peek arguments) := by
    rw [now.stack]
    exact Answer.repeats_refl _
  refine Tracks.observe_bind now peeks fun word found => ?_
  refine Tracks.observe_bind now (Answer.repeats_refl _) fun object called => ?_
  have reference : word = .ref object := by
    cases word with
    | ref other =>
      cases called
      rfl
    | scalar number => cases called
    | slot place => cases called
  rw [reference] at found
  refine Tracks.observe_bind now (entries object found) fun address _ => ?_
  have calls : Simulates strict (Corresponds H more)
      (answer (target image address) >>= fun offset => call offset arguments (arguments + 1))
      (answer (target longer address) >>= fun offset => call offset arguments (arguments + 1)) :=
    (simulates_answer (alike.target address)).bind fun offset => simulates_call _ _ _
  exact calls m n now

/-- An instruction of the second machine tracks the same instruction of the first one. Proof: by
cases on the instruction, each of which is a sequence of parts that simulate one another. Only the
call of a closure asks for more than corresponding states: the two hosts have to agree on the entry
of what is called. -/
theorem execute_tracks {instruction : Instruction}
    (entries : ∀ arguments size object, instruction = .callClosure arguments →
      count arguments = .ok size → m.stack.peek size = .ok (.ref object) →
      Answer.Repeats strict (entryAddress object m.host) (entryAddress object n.host)) :
    Tracks strict (Corresponds H more) (execute image instruction) (execute longer instruction)
      m n := by
  have same {α : Type} (given : Answer α) :
      Simulates strict (Corresponds H more) (answer given) (answer given) :=
    simulates_answer (Answer.repeats_refl given)
  have goesOn : Simulates strict (Corresponds H more) (pure Flow.next) (pure Flow.next) :=
    simulates_pure Flow.next
  have pushes (value : Value) : Simulates strict (Corresponds H more)
      (push value >>= fun _ => pure Flow.next) (push value >>= fun _ => pure Flow.next) :=
    (simulates_push value).bind fun _ => goesOn
  -- only the call of a closure asks for more than that the machines correspond
  suffices every : (∀ arguments, instruction ≠ .callClosure arguments) →
      Simulates strict (Corresponds H more) (execute image instruction)
        (execute longer instruction) by
    by_cases closes : ∃ arguments, instruction = .callClosure arguments
    · obtain ⟨arguments, rfl⟩ := closes
      refine Tracks.observe_bind now (Answer.repeats_refl _) fun size counted => ?_
      refine Tracks.bind (callClosure_tracks alike now fun object found => ?_) fun _ => goesOn
      exact entries arguments size object rfl counted found
    · exact every (fun arguments same => closes ⟨arguments, same⟩) m n now
  intro others
  cases instruction with
  | callClosure arguments => exact absurd rfl (others arguments)
  | binary operator =>
    exact simulates_pop.bind fun _ => simulates_pop.bind fun _ => (same _).bind fun _ => pushes _
  | constant number => exact pushes _
  | string offset =>
    exact (simulates_answer (alike.stringAt offset)).bind fun bytes =>
      (simulates_onHost (alike.hosts.newString bytes)).bind fun _ => pushes _
  | aggregate name arity =>
    exact (same _).bind fun size => (simulates_answer (alike.stringAt name)).bind fun bytes =>
      (simulates_askHost fun s t related => alike.hosts.tag s t related bytes).bind fun tag =>
        (simulates_gather size (alike.hosts.newAggregate tag)).bind fun _ => goesOn
  | storeThrough =>
    exact simulates_pop.bind fun _ => simulates_pop.bind fun _ =>
      (alike.storeThrough _ _).bind fun _ => pushes _
  | storeElement => exact alike.storeElement.bind fun _ => goesOn
  | jump address =>
    exact (simulates_answer (alike.target address)).bind fun _ => (simulates_jumpTo _).bind
      fun _ => goesOn
  | leave => exact alike.leave
  | ret => exact simulates_throw _
  | drop => exact simulates_pop.bind fun _ => goesOn
  | duplicate => exact (simulates_observeStack (Stack.peek 0)).bind fun _ => pushes _
  | swap =>
    exact simulates_pop.bind fun _ => simulates_pop.bind fun _ => (simulates_push _).bind fun _ =>
      pushes _
  | element =>
    exact simulates_pop.bind fun _ => (same _).bind fun index => simulates_pop.bind
      fun container => (simulates_askHost fun s t related =>
        alike.hosts.element s t related container index).bind fun _ => pushes _
  | load name =>
    exact (simulates_observe fun _ _ related =>
      related.load alike.no_more alike.hosts name).bind fun _ => pushes _
  | loadPlace name =>
    exact (simulates_observe fun _ _ related => related.place alike.no_more name).bind
      fun _ => pushes _
  | store name =>
    exact (simulates_observeStack (Stack.peek 0)).bind fun value =>
      (alike.store name value).bind fun _ => goesOn
  | jumpIfZero address => exact (alike.branch _ _).bind fun _ => goesOn
  | jumpUnlessZero address => exact (alike.branch _ _).bind fun _ => goesOn
  | enter arguments locals => exact (same _).bind fun _ => (simulates_enter _).bind fun _ => goesOn
  | enterClosure arguments locals =>
    exact (same _).bind fun _ => (simulates_enter _).bind fun _ => goesOn
  | closure address captured =>
    refine (simulates_answer (alike.target address)).bind fun entry => ?_
    refine (simulates_observe fun _ _ related =>
      related.loadAll alike.no_more alike.hosts captured).bind fun values => ?_
    exact (simulates_onHost (alike.hosts.newClosure entry values.toArray)).bind fun _ => pushes _
  | call address arguments =>
    exact (same _).bind fun _ => (simulates_answer (alike.target address)).bind fun _ =>
      (simulates_call _ _ _).bind fun _ => goesOn
  | matchAggregate name arity =>
    refine (simulates_answer (alike.stringAt name)).bind fun bytes =>
      (simulates_askHost fun s t related => alike.hosts.tag s t related bytes).bind fun tag =>
        simulates_pop.bind fun value => (same _).bind fun size => Simulates.afterGet
          fun m n related => ?_
    rw [alike.hosts.matchesAggregate _ _ related.host]
    exact pushes _
  | matchArray length =>
    refine simulates_pop.bind fun value => (same _).bind fun size => Simulates.afterGet
      fun m n related => ?_
    rw [alike.hosts.matchesArray _ _ related.host]
    exact pushes _
  | failure line column => exact simulates_throw _
  | line number =>
    exact (simulates_modify fun _ _ related => { related with line := rfl }).bind fun _ => goesOn
  | test pattern => exact (alike.test pattern).bind fun _ => goesOn
  | readNumber => exact (simulates_onHost alike.hosts.readNumber).bind fun _ => pushes _
  | writeNumber =>
    exact simulates_pop.bind fun _ => (same _).bind fun number =>
      (simulates_onHost (alike.hosts.writeNumber number)).bind fun _ => pushes _
  | length =>
    exact simulates_pop.bind fun value => (simulates_askHost fun s t related =>
      alike.hosts.length s t related value).bind fun _ => pushes _
  | print =>
    exact simulates_pop.bind fun value => (simulates_onHost (alike.hosts.print value)).bind
      fun _ => pushes _
  | array length =>
    exact (same _).bind fun size => (simulates_gather size alike.hosts.newArray).bind fun _ =>
      goesOn
  | stop => exact simulates_pure _

omit alike now in
/-- The fault of a turn tells the line, which is the same for both machines. Otherwise a turn ends
as its instruction does. -/
theorem turn_tracks {instruction : Instruction} {behind : Nat} (offset : Nat)
    (executed : Tracks strict (Corresponds H more) (execute image instruction)
      (execute longer instruction) { m with next := behind } { n with next := behind }) :
    Tracks strict (Corresponds H more) (turn image offset behind instruction)
      (turn longer offset behind instruction) m n := by
  unfold Tracks Ends at executed ⊢
  unfold turn
  cases ended : execute image instruction { m with next := behind } with
  | ok flow s =>
    rw [ended] at executed
    obtain ⟨t, done, later⟩ := executed
    exact ⟨t, by rw [done], later⟩
  | error cause s =>
    rw [ended] at executed
    intro full
    obtain ⟨t, done, later⟩ := executed full
    refine ⟨t, ?_, later⟩
    rw [done, ← later.line]

/-- A turn of the second machine tracks a turn of the first one, if the closure that it calls
starts alike for both. -/
theorem advance_tracks
    (entries : ∀ object, callee? image m = some object →
      Answer.Repeats strict (entryAddress object m.host) (entryAddress object n.host)) :
    Tracks strict (Corresponds H more) (advance image) (advance longer) m n := by
  obtain ⟨_, code⟩ := alike.extends_.code
  simp only [Tracks, Ends, advance]
  by_cases inside : m.next < image.code.size
  · have inside' : n.next < longer.code.size := by
      rw [now.next, code, Array.size_append]
      omega
    rw [if_neg (Nat.not_le.mpr inside), if_neg (Nat.not_le.mpr inside')]
    cases fetched : fetch image m.next with
    | error cause =>
      intro same
      rw [(alike.shared same).1, now.next, now.line, fetched]
      exact ⟨n, rfl, now⟩
    | ok found =>
      obtain ⟨instruction, behind⟩ := found
      rw [now.next, alike.extends_.fetch fetched]
      have moved : Corresponds H more { m with next := behind } { n with next := behind } :=
        { now with next := rfl }
      refine turn_tracks _ (execute_tracks alike moved ?_)
      rintro arguments size object rfl counted peeked
      exact entries object (callee?_eq_some fetched counted peeked)
  · rw [if_pos (Nat.le_of_not_lt inside)]
    intro same
    rw [(alike.shared same).1, now.next, if_pos (Nat.le_of_not_lt inside)]
    exact ⟨n, rfl, now⟩

end

/-! ### New machines -/

omit [Host σ] [Host τ] in
/-- Machines that correspond without more globals look the same to those who see of the hosts only
what these have in common. -/
theorem Corresponds.mapHost_eq {υ : Type} {f : σ → υ} {g : τ → υ} (now : Corresponds H 0 m n)
    (looks : ∀ s t, H s t → f s = g t) : m.mapHost f = n.mapHost g := by
  have globals : n.globals = m.globals := now.globals.trans Array.append_empty
  simp only [mapHost, now.stack, globals, looks _ _ now.host, now.frame, now.next, now.line,
    now.depth]

section Start

variable {capacity : Nat} {allocator : Allocator} {s s' : σ} {t t' : τ}
  {events events' : List Event}

omit [Host σ] [Host τ] in
/-- Making a machine does not look at the host, so the host can be seen through a function before
or afterwards. -/
theorem ofHost_mapHost (f : σ → τ) :
    (ofHost image capacity allocator s).map (mapHost f) =
      ofHost image capacity allocator (f s) := by
  simp only [ofHost, bind, Except.bind]
  cases Stack.ofCapacity capacity allocator with
  | error cause => rfl
  | ok stack =>
    dsimp only
    cases zeroWords allocator image.globals .globals with
    | error cause => rfl
    | ok globals =>
      dsimp only
      cases openBottom stack <;> rfl

omit [Host τ] in
/-- Once the host is ready, only the stack size and the allocator can prevent a machine. The size
is looked at first, and the allocator is not asked for a stack that is too large. -/
theorem start_of_prepared (prepared : Host.prepare s = .ok events s') :
    (Machine.start image capacity allocator s).2 =
      if greatestCapacity < capacity then .error (.machine (.capacityTooLarge capacity))
      else ofHost image capacity allocator s' := by
  unfold Machine.start
  rw [prepared]
  dsimp only
  split
  · rfl
  · cases ofHost image capacity allocator s' <;> rfl

/-- One allocator makes machines that look the same, or refuses both alike, if the hosts look the
same when they are ready. -/
theorem start_mapHost_eq {υ : Type} {f : σ → υ} {g : τ → υ}
    (prepared : Host.prepare s = .ok events s')
    (prepared' : Host.prepare t = .ok events' t') (looks : f s' = g t') :
    (Machine.start image capacity allocator s).2.map (mapHost f) =
      (Machine.start image capacity allocator t).2.map (mapHost g) := by
  rw [start_of_prepared prepared, start_of_prepared prepared']
  split
  · rfl
  · rw [ofHost_mapHost, ofHost_mapHost, looks]

/-- New machines correspond if their hosts are related when they are ready, whichever allocators
have made room for them. -/
theorem start_corresponds {allocator' : Allocator} (prepared : Host.prepare s = .ok events s')
    (prepared' : Host.prepare t = .ok events' t') (related : H s' t')
    (made : (Machine.start image capacity allocator s).2 = .ok m)
    (made' : (Machine.start image capacity allocator' t).2 = .ok n) : Corresponds H 0 m n := by
  obtain ⟨_, _, _, ready, built⟩ := start_eq_ok_iff.mp made
  obtain ⟨_, _, _, ready', built'⟩ := start_eq_ok_iff.mp made'
  cases prepared.symm.trans ready
  cases prepared'.symm.trans ready'
  obtain ⟨_, _, stack, opened, rfl⟩ := ofHost_eq_ok_iff.mp built
  obtain ⟨_, _, _, opened', rfl⟩ := ofHost_eq_ok_iff.mp built'
  -- both frames have been opened on the empty stack, so it has become one stack
  cases opened.symm.trans opened'
  exact ⟨rfl, Array.append_empty.symm, related, rfl, rfl, rfl, rfl⟩

end Start

end Machine

end BytecodeMachine
