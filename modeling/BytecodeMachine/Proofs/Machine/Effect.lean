import BytecodeMachine.Host.Workspace
import BytecodeMachine.Instruction.Encode
import BytecodeMachine.Proofs.Machine.History
import BytecodeMachine.Proofs.Machine.Linkage
import BytecodeMachine.Proofs.Stack.Live
/-!
# The stack effects of instructions

An instruction that succeeds takes a number of words from the top of the stack and leaves a
number of words there. For all instructions but leaving both numbers are known before it is
executed: from its operands, and for a store into an element from the word below the stored
one, which says whether an element or a place is meant. Of the words below only one can be
replaced, the one that a store designates.

Leaving clears the stack down to the frame instead, and further down by as many arguments as
the frame counts.

Nothing is assumed of the host, and the state need not be one that a machine comes to.
-/
namespace BytecodeMachine

/-- The operand that says how many words an instruction takes or makes. -/
def Instruction.wordCount? : Instruction → Option Int32
  | .aggregate _ size | .array size => some size
  | .call _ arguments | .callClosure arguments => some arguments
  | .enter _ locals | .enterClosure _ locals => some locals
  | _ => none

namespace Stack

/-- Takes `taken` words from the top of `s` and leaves `given` words. Below them the only word
that may be replaced is the one at the place that is `written`, by the word on top of `s`. -/
structure Effect (taken given : Nat) (written : Option Slot) (s t : Stack) : Prop where
  capacity : t.capacity = s.capacity
  enough : taken ≤ s.size
  size : t.size = s.size - taken + given
  below : ∀ index, s.top + taken ≤ index → written ≠ some (.stack index) →
    t.words[index]? = s.words[index]?
  stored : ∀ index, written = some (.stack index) →
    s.top + taken ≤ index ∧ index < s.bottom ∧ t.words[index]? = s.words[s.top]?

/-- A value has been put into a place. Nothing else on the stack has changed, and nothing at all
if the place is elsewhere. -/
structure Put (place : Slot) (value : Value) (s t : Stack) : Prop where
  capacity : t.words.size = s.words.size
  top : t.top = s.top
  others : ∀ index, place ≠ .stack index → t.words[index]? = s.words[index]?
  stored : ∀ index, place = .stack index →
    s.top ≤ index ∧ index < s.words.size ∧ t.words[index]? = some value

variable {s t u : Stack} {taken given : Nat} {place : Slot} {value : Value} {a : Unit}

/-- A trade has the effect of a turn that writes to no place. The two are stated with the top and
with the size, which add up to the storage. -/
theorem Trade.effect (trade : Trade taken given s t) : Effect taken given none s t := by
  obtain ⟨capacity, enough, top, below⟩ := trade
  have inside := s.top_le
  refine ⟨capacity, ?_, ?_, fun index deep _ => below index deep, ?_⟩
  · simp only [size, bottom]
    omega
  · simp only [size, bottom]
    omega
  · intro index none
    cases none

/-- A place that is not on the stack is not touched. -/
theorem put_elsewhere (elsewhere : ∀ index, place ≠ .stack index) : Put place value s s :=
  ⟨rfl, rfl, fun _ _ => rfl, fun index same => absurd same (elsewhere index)⟩

/-- Setting a word of the stack puts the value there and changes no other. The word must be live,
so it lies inside the array and is found there afterwards. -/
theorem put_of_set {index : Nat} (done : set index value s = .ok a t) :
    Put (.stack index) value s t := by
  obtain ⟨live, top, words⟩ := set_eq_ok_iff.mp done
  refine ⟨by rw [words, Array.size_setIfInBounds], top, ?_, ?_⟩
  · intro other elsewhere
    have ne : index ≠ other := fun same => elsewhere (congrArg Slot.stack same)
    rw [words, Array.getElem?_setIfInBounds_ne ne]
  · rintro _ ⟨⟩
    exact ⟨live.1, live.2, by rw [words, Array.getElem?_setIfInBounds_self_of_lt live.2]⟩

/-- The topmost word is put into a place and stays where it is. So nothing is taken or given, and
the place, if it is on the stack, has the word that is on top. -/
theorem Put.effect (put : Put place value s t) (topmost : s.words[s.top]? = some value) :
    Effect 0 0 (some place) s t := by
  refine ⟨put.capacity, Nat.zero_le _, ?_, ?_, ?_⟩
  · simp only [size, bottom, put.capacity, put.top, Nat.sub_zero, Nat.add_zero]
  · intro index _ elsewhere
    exact put.others index fun same => elsewhere (congrArg some same)
  · intro index same
    obtain ⟨live, inside, found⟩ := put.stored index (Option.some.inj same)
    exact ⟨live, inside, found.trans topmost.symm⟩

/-- The topmost word is taken with others, put into a place and put back. A place on the stack is
among the words that are left, since those taken are above the top by then, so the push does not
overwrite it. -/
theorem Put.effect_push (put : Put place value u t) (words : u.words = s.words)
    (top : u.top = s.top + taken) (more : 0 < taken) (topmost : s.words[s.top]? = some value)
    {pushed : Stack} (done : push value t = .ok a pushed) :
    Effect taken 1 (some place) s pushed := by
  obtain ⟨room, replaced⟩ := push_eq_ok_iff.mp done
  have putTop := put.top
  have inside := u.top_le
  have size : pushed.words.size = s.words.size := by
    rw [replaced, Array.size_setIfInBounds, put.capacity, words]
  rw [words] at inside
  refine ⟨size, ?_, ?_, ?_, ?_⟩
  · simp only [Stack.size, bottom]
    omega
  · simp only [Stack.size, bottom, size]
    omega
  · intro index deep elsewhere
    have other : place ≠ .stack index := fun same => elsewhere (congrArg some same)
    rw [replaced, Array.getElem?_setIfInBounds_ne (by omega), put.others index other, words]
  · intro index same
    obtain ⟨live, within, found⟩ := put.stored index (Option.some.inj same)
    rw [words] at within
    refine ⟨by omega, within, ?_⟩
    rw [replaced, Array.getElem?_setIfInBounds_ne (by omega), found, topmost]

end Stack

namespace Machine

open BytecodeMachine.Action

variable {σ : Type} {m n s u : Machine σ} {instruction : Instruction} {image : Image}
  {flow : Flow} {place : Slot} {value : Value}

/-- How many words an instruction takes from the stack and leaves there. Leaving has no numbers
of its own. -/
def effect? (m : Machine σ) : Instruction → Option (Nat × Nat)
  | .store _ => some (0, 0)
  | .storeThrough => some (2, 1)
  | .storeElement =>
    match m.stack.peek 1 with
    | .ok (.scalar _) => some (3, 1)
    | _ => some (2, 1)
  | instruction => instruction.trade?

/-- The place that a store designates: that of the variable it names, or the one below the stored
word. An element is no place. -/
def written? (m : Machine σ) : Instruction → Option Slot
  | .store name => (m.place name).toOption
  | .storeThrough | .storeElement =>
    match m.stack.peek 1 with
    | .ok (.slot place) => some place
    | _ => none
  | _ => none

/-- Apart from stores, the effect of an instruction is its trade. -/
theorem effect?_eq_trade? (stores : instruction.isStore = false) :
    m.effect? instruction = instruction.trade? := by
  cases instruction with
  | store name => cases stores
  | storeThrough => cases stores
  | storeElement => cases stores
  | _ => rfl

/-- And there is no place that it writes to. -/
theorem written?_eq_none (stores : instruction.isStore = false) :
    m.written? instruction = none := by
  cases instruction with
  | store name => cases stores
  | storeThrough => cases stores
  | storeElement => cases stores
  | _ => rfl

/-- The only instruction without an effect of its own is leaving. -/
theorem effect?_eq_none_iff : m.effect? instruction = none ↔ instruction = .leave := by
  cases instruction with
  | storeElement =>
    simp only [effect?, reduceCtorEq, iff_false]
    split <;> simp
  | test pattern => cases pattern <;> simp [effect?, Instruction.trade?]
  | _ => simp [effect?, Instruction.trade?]

variable [Host σ]

/-- Writing to a place puts the value on the stack if the place is there. Otherwise the stack is as
it was. -/
theorem writeSlot_put (done : writeSlot place value m = .ok () n) :
    Stack.Put place value m.stack n.stack := by
  cases place with
  | global index =>
    obtain ⟨stack, globals, host, frame, next, line, depth⟩ := m
    simp only [writeSlot, writeGlobal] at done
    split at done
    · cases done
      exact Stack.put_elsewhere (by simp)
    · cases done
  | stack index =>
    obtain ⟨stack, set, rfl⟩ := onStack_eq_ok_iff.mp done
    exact Stack.put_of_set set
  | field object index =>
    obtain ⟨host, asked, rfl⟩ := onHost_eq_ok_iff.mp done
    exact Stack.put_elsewhere (by simp)

/-- A store through the place below the stored word. It takes both and pushes the stored one, and
any word but a place is refused. -/
theorem storeThrough_effect {target : Value} {t w : Machine σ} (popped : pop m = .ok value s)
    (poppedTarget : pop s = .ok target t) (stored : storeThrough target value t = .ok () u)
    (pushed : push value u = .ok () w) :
    ∃ place, m.stack.peek 1 = .ok (.slot place) ∧
      Stack.Effect 2 1 (some place) m.stack w.stack := by
  obtain ⟨first, topmost, rfl⟩ := pop_eq_ok_iff.mp popped
  obtain ⟨second, below, rfl⟩ := pop_eq_ok_iff.mp poppedTarget
  obtain ⟨stack, added, rfl⟩ := onStack_eq_ok_iff.mp pushed
  obtain ⟨topmost, top, words⟩ := Stack.pop_eq_ok_iff.mp topmost
  obtain ⟨_, top', words'⟩ := Stack.pop_eq_ok_iff.mp below
  cases target with
  | slot place =>
    have put : Stack.Put place value second u.stack := writeSlot_put stored
    refine ⟨place, peek_of_pops popped poppedTarget, ?_⟩
    exact put.effect_push (words'.trans words) (top'.trans (by rw [top])) (by decide) topmost added
  | scalar number => cases stored
  | ref object => cases stored

/-- A store into an element takes the number and the object below the stored word. The element is
on the heap, so nothing else on the stack changes. -/
theorem setElement_effect {index : Int32} {container : Value} {t v w : Machine σ}
    (popped : pop m = .ok value s) (poppedIndex : pop s = .ok (.scalar index) t)
    (poppedContainer : pop t = .ok container v)
    (stored : onHost (Host.setElement container index value) v = .ok () u)
    (pushed : push value u = .ok () w) :
    m.stack.peek 1 = .ok (.scalar index) ∧ Stack.Effect 3 1 none m.stack w.stack := by
  obtain ⟨first, topmost, rfl⟩ := pop_eq_ok_iff.mp popped
  obtain ⟨second, below, rfl⟩ := pop_eq_ok_iff.mp poppedIndex
  obtain ⟨third, lowest, rfl⟩ := pop_eq_ok_iff.mp poppedContainer
  obtain ⟨host, _, rfl⟩ := onHost_eq_ok_iff.mp stored
  obtain ⟨stack, added, rfl⟩ := onStack_eq_ok_iff.mp pushed
  have trade := (((Stack.pop_trade topmost).trans (Stack.pop_trade below)).trans
    (Stack.pop_trade lowest)).trans (Stack.push_trade added)
  exact ⟨peek_of_pops popped poppedIndex, trade.effect⟩

/-- A store that succeeds has its effect. Proof: by the three stores. The one that takes a
container and an index is told from the one that takes a place by the word below the stored one, as
the declared effect is. -/
theorem store_effect {taken given : Nat} (stores : instruction.isStore = true)
    (declared : m.effect? instruction = some (taken, given))
    (done : execute image instruction m = .ok flow n) :
    Stack.Effect taken given (m.written? instruction) m.stack n.stack := by
  cases instruction with
  | store name =>
    simp only [execute, store, bind_eq_ok_iff, observe_eq_ok_iff, during_eq_ok_iff] at done
    obtain ⟨value, _, ⟨peeked, rfl⟩, _, u, ⟨place, _, ⟨found, rfl⟩, stored⟩, ⟨⟩⟩ := done
    cases declared
    rw [written?, found]
    exact (writeSlot_put stored).effect (Stack.peek_eq_ok_iff.mp peeked)
  | storeThrough =>
    simp only [execute, bind_eq_ok_iff] at done
    obtain ⟨value, s, popped, target, t, poppedTarget, _, u, stored, _, w, pushed, ⟨⟩⟩ := done
    obtain ⟨place, below, effect⟩ := storeThrough_effect popped poppedTarget stored pushed
    cases declared
    rw [written?, below]
    exact effect
  | storeElement =>
    simp only [execute, storeElement, bind_eq_ok_iff] at done
    obtain ⟨_, _, ⟨value, s, popped, target, t, poppedTarget, done⟩, ⟨⟩⟩ := done
    cases target with
    | scalar index =>
      simp only [bind_eq_ok_iff] at done
      obtain ⟨container, v, poppedContainer, _, u, stored, pushed⟩ := done
      obtain ⟨below, effect⟩ := setElement_effect popped poppedTarget poppedContainer stored pushed
      rw [effect?, below] at declared
      cases declared
      rw [written?, below]
      exact effect
    | ref object =>
      simp only [bind_eq_ok_iff] at done
      obtain ⟨_, u, stored, _⟩ := done
      cases stored
    | slot place =>
      simp only [bind_eq_ok_iff] at done
      obtain ⟨_, u, stored, pushed⟩ := done
      obtain ⟨place, below, effect⟩ := storeThrough_effect popped poppedTarget stored pushed
      rw [effect?, below] at declared
      cases declared
      rw [written?, below]
      exact effect
  | _ => cases stores

/-- An instruction that succeeds has its declared effect: stores by cases on where they write, and
all others as trades. -/
theorem execute_effect {taken given : Nat} (declared : m.effect? instruction = some (taken, given))
    (done : execute image instruction m = .ok flow n) :
    Stack.Effect taken given (m.written? instruction) m.stack n.stack := by
  cases stores : instruction.isStore with
  | true => exact store_effect stores declared done
  | false =>
    rw [effect?_eq_trade? stores] at declared
    rw [written?_eq_none stores]
    exact (execute_trades image instruction declared m flow n done).effect

omit [Host σ] in
/-- What starts with a count succeeds only if it is one. -/
theorem nonneg_of_count {α : Type} {operand : Int32} {next : Nat → Action (Machine σ) α} {a : α}
    (done : (answer (count operand) >>= next) m = .ok a n) : 0 ≤ operand := by
  obtain ⟨size, _, counted, _⟩ := bind_eq_ok_iff.mp done
  exact (count_eq_ok_iff.mp (observe_eq_ok_iff.mp counted).1).1

/-- No instruction succeeds that is to take or to make a negative number of words: each one begins
by making its operand a count. -/
theorem wordCount_nonneg {operand : Int32} (counts : operand ∈ instruction.wordCount?)
    (done : execute image instruction m = .ok flow n) : 0 ≤ operand := by
  cases instruction with
  | aggregate name size =>
    cases counts
    exact nonneg_of_count done
  | array size =>
    cases counts
    exact nonneg_of_count done
  | call address arguments =>
    cases counts
    exact nonneg_of_count done
  | callClosure arguments =>
    cases counts
    exact nonneg_of_count done
  | enter arguments locals =>
    cases counts
    exact nonneg_of_count done
  | enterClosure arguments locals =>
    cases counts
    exact nonneg_of_count done
  | _ => cases counts

omit [Host σ] in
/-- The number of arguments is the word behind the saved frame pointer, if that is a number and not
negative. -/
theorem argumentCount_of_get {count : Int32}
    (found : m.stack.get (m.frame + 1) = .ok (.scalar count))
    (positive : 0 ≤ count) : m.argumentCount = .ok count.toInt.toNat := by
  have present : ¬ count < 0 := Int32.not_lt.mpr positive
  simp [argumentCount, found, bind, Except.bind, Value.expectScalar, Answer.during, present, pure,
    Except.pure]

omit [Host σ] in
/-- Leaving succeeds only in a frame that counts its arguments. What it takes off as their number
is the word that the count is read from. -/
theorem argumentCount_of_leave (done : leave image m = .ok flow n) :
    ∃ count, m.stack.get (m.frame + 1) = .ok (.scalar count) ∧ 0 ≤ count := by
  simp only [leave, pop_eq_ok_iff, bind_eq_ok_iff, get_eq_ok_iff, onStack_eq_ok_iff] at done
  obtain ⟨result, _, ⟨stack₁, popped, rfl⟩, _, _, ⟨rfl, rfl⟩, _, _, ⟨stack₂, cleared, rfl⟩, frame,
    _, linked, arguments, _, counted, _⟩ := done
  obtain ⟨_, stack₃, popped₃, _, _, rfl⟩ := popLink_ok linked
  obtain ⟨count, stack₄, popped₄, positive, _, _⟩ := popArgumentCount_ok counted
  dsimp only at cleared popped₃ popped₄
  obtain ⟨_, top₁, words₁⟩ := Stack.pop_eq_ok_iff.mp popped
  obtain ⟨above, top₂, words₂⟩ := Stack.setTop_eq_ok_iff.mp cleared
  obtain ⟨_, top₃, words₃⟩ := Stack.pop_eq_ok_iff.mp popped₃
  obtain ⟨found, _, _⟩ := Stack.pop_eq_ok_iff.mp popped₄
  rw [words₃, words₂, words₁, top₃, top₂] at found
  exact ⟨count, Stack.get_eq_ok_iff.mpr ⟨by omega, found⟩, positive⟩

omit [Host σ] in
/-- Leaving puts the word that was on top in the place of all that is above the arguments, and of
the arguments. -/
theorem leave_effect (done : leave image m = .ok flow n) :
    ∃ arguments result, m.argumentCount = .ok arguments ∧ m.stack.peek 0 = .ok result ∧
      n.stack.live.toList = result :: m.stack.words.toList.drop (m.frame + 3 + arguments) := by
  obtain ⟨count, counted, positive⟩ := argumentCount_of_leave done
  obtain ⟨_, _, _, result, left, _⟩ := leave_left done
  obtain ⟨rfl⟩ : .scalar count = Value.scalar _ :=
    Except.ok.inj (counted.symm.trans left.argumentCount)
  have last := (Stack.get_eq_ok_iff.mp left.last).2
  refine ⟨_, result, argumentCount_of_get counted positive, Stack.peek_eq_ok_iff.mpr last, ?_⟩
  have answered := (Stack.get_eq_ok_iff.mp left.answered).2
  rw [← Array.getElem?_toList, List.getElem?_eq_some_iff] at answered
  obtain ⟨inside, answered⟩ := answered
  have behind : n.stack.words.toList.drop (n.stack.top + 1) =
      m.stack.words.toList.drop (n.stack.top + 1) := by
    apply List.ext_getElem?
    intro index
    rw [List.getElem?_drop, List.getElem?_drop, Array.getElem?_toList, Array.getElem?_toList,
      left.below _ (by omega)]
  rw [Stack.live_toList, List.drop_eq_getElem_cons inside, answered, behind, left.top]

/-- An instruction that has been read and succeeds has its effect on the stack, and only leaving
has none of its own: that puts its result on top of the words behind the arguments that the
frame counts. No count among the operands is negative. -/
theorem instructions_have_effects {behind : Nat}
    (fetched : fetch image m.next = .ok (instruction, behind))
    (advanced : advance image m = .ok flow n) :
    (∀ operand ∈ instruction.wordCount?, 0 ≤ operand) ∧
      (∀ taken given, m.effect? instruction = some (taken, given) →
        Stack.Effect taken given (m.written? instruction) m.stack n.stack) ∧
      (m.effect? instruction = none → instruction = .leave ∧
        ∃ arguments result, m.argumentCount = .ok arguments ∧ m.stack.peek 0 = .ok result ∧
          n.stack.live.toList = result :: m.stack.words.toList.drop (m.frame + 3 + arguments)) := by
  have executed := executed_of_advance fetched advanced
  refine ⟨fun operand counts => wordCount_nonneg counts executed, ?_, ?_⟩
  · intro taken given declared
    -- neither table looks at the next offset, the only thing that reading has changed
    have declared : effect? { m with next := behind } instruction = some (taken, given) := by
      cases instruction <;> exact declared
    have effect := execute_effect declared executed
    have written : written? { m with next := behind } instruction = m.written? instruction := by
      cases instruction <;> rfl
    rwa [written] at effect
  · intro none
    obtain rfl := effect?_eq_none_iff.mp none
    exact ⟨rfl, leave_effect (m := { m with next := behind }) executed⟩

/-- A program that stores into its local through the place of it. -/
def storedLocal : Image where
  strings := #[]
  publics := []
  code := (([.enter 2 1, .loadPlace ⟨.locals, 0⟩, .constant 9, .storeElement] :
    List Instruction).flatMap Instruction.encode).toArray
  globals := 0

/-- The store takes the stored word and the place and gives the word back. Of the words below it
replaces the local. -/
theorem instructions_have_effects_storedLocal :
    ∃ m n, Reachable storedLocal 16 (Workspace.ofInput [] {}) m ∧
      advance storedLocal m = .ok .next n ∧ m.written? .storeElement = some (.stack 10) ∧
      Stack.Effect 2 1 (some (.stack 10)) m.stack n.stack ∧
      n.stack.words[10]? = some (.scalar 9) := by
  obtain ⟨first, made, done, effects, places, words⟩ :
      ∃ first, (Machine.start storedLocal 16 .boundless (Workspace.ofInput [] {})).2 = .ok first ∧
        (record storedLocal 4 [] first).1.map (·.instruction) =
          [.storeElement, .constant 9, .loadPlace ⟨.locals, 0⟩, .enter 2 1] ∧
        (record storedLocal 4 [] first).1.map (fun turn => turn.before.effect? turn.instruction) =
          [some (2, 1), some (0, 1), some (0, 1), some (0, 2)] ∧
        (record storedLocal 4 [] first).1.map (fun turn => turn.before.written? turn.instruction) =
          [some (.stack 10), none, none, none] ∧
        (record storedLocal 4 [] first).1.map
            (fun turn => turn.before.stack.words[turn.before.stack.top]?) =
          [some (.scalar 9), some (.slot (.stack 10)), some (.scalar 0), some (.scalar 2)] :=
    ⟨_, rfl, by decide +kernel, by decide +kernel, by decide +kernel, by decide +kernel⟩
  have history := (History.start made).record 4
  obtain ⟨last, past, turns, stores, _⟩ := List.map_eq_cons_iff.mp done
  rw [turns, List.map_cons, List.cons.injEq, stores] at effects places
  rw [turns, List.map_cons, List.cons.injEq] at words
  rw [turns] at history
  obtain ⟨reachable, fetched, advanced⟩ := history.last
  rw [stores] at fetched
  obtain ⟨_, declared, _⟩ := instructions_have_effects fetched advanced
  have effect := declared 2 1 effects.1
  rw [places.1] at effect
  exact ⟨last.before, last.after, reachable, advanced, places.1, effect,
    (effect.stored 10 rfl).2.2.trans words.1⟩

end Machine

end BytecodeMachine
