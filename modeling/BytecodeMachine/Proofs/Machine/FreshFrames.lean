import BytecodeMachine.Host.Workspace
import BytecodeMachine.Instruction.Encode
import BytecodeMachine.Proofs.Machine.Destinations
import BytecodeMachine.Proofs.Machine.Variables
/-!
# Fresh frames

What a function finds when it starts. A caller puts the arguments on the stack one after
another, so the last one is on top; a frame counts them from the linkage downwards. A call
turns them round in place, which brings the first one next to the linkage, and the entry
behind the call puts the link on top of it and as many zeros on top of that as there are
locals. Whatever the stack held there before is overwritten, and below the arguments nothing
is touched.

The call of a closure turns round the arguments alone. The closure itself lies below them from
the start, and so it comes out as the last argument.
-/
namespace BytecodeMachine

/-- How many locals an entry makes. -/
def Instruction.locals : Instruction → Nat
  | .enter _ locals | .enterClosure _ locals => locals.toInt.toNat
  | _ => 0

namespace Machine

open BytecodeMachine.Action

variable {σ : Type} {m s n : Machine σ} {values arguments below : List Value} {value : Value}
  {locals index : Nat} {image : Image} {instruction : Instruction} {flow : Flow}

/-- The frame of a function that has just been entered. Above the frame pointer are the locals,
all of them zero; behind the linkage are the arguments, the first one first. -/
structure FreshFrame (locals : Nat) (arguments below : List Value) (m : Machine σ) : Prop where
  live : ∃ link address, m.stack.live.toList = List.replicate locals Value.zero ++
    .scalar link :: .scalar (Int32.ofNat arguments.length) :: .scalar address ::
      (arguments ++ below)
  frame : m.frame = m.stack.top + locals
  fits : arguments.length < 2147483648

namespace FreshFrame

variable (fresh : FreshFrame locals arguments below m)
include fresh

/-- Words behind the frame pointer are found behind the locals. The pointer is where the locals
end, so the offset counts from the linkage on. -/
theorem get_behind (link address : Int32) (offset : Nat)
    (live : m.stack.live.toList = List.replicate locals Value.zero ++ .scalar link ::
      .scalar (Int32.ofNat arguments.length) :: .scalar address :: (arguments ++ below)) :
    m.stack.get (m.frame + offset) = .ok value ↔
      (.scalar link :: .scalar (Int32.ofNat arguments.length) :: .scalar address ::
        (arguments ++ below))[offset]? = some value := by
  have behind : locals ≤ locals + offset := Nat.le_add_right _ _
  rw [fresh.frame, Nat.add_assoc, Stack.get_eq_ok_iff_live, live,
    List.getElem?_append_right (by rwa [List.length_replicate]), List.length_replicate,
    Nat.add_sub_cancel_left]

/-- In the word behind the saved frame pointer is the number of arguments. -/
theorem get_argumentCount :
    m.stack.get (m.frame + 1) = .ok (.scalar (Int32.ofNat arguments.length)) := by
  obtain ⟨link, address, live⟩ := fresh.live
  rw [fresh.get_behind link address 1 live]
  rfl

/-- Behind the three words of the linkage are the arguments, the first one first. -/
theorem get_argument (found : arguments[index]? = some value) :
    m.stack.get (m.frame + 3 + index) = .ok value := by
  obtain ⟨link, address, live⟩ := fresh.live
  have inside : index < arguments.length := (List.getElem?_eq_some_iff.mp found).1
  rw [Nat.add_assoc, Nat.add_comm 3, fresh.get_behind link address (index + 3) live]
  simp only [List.getElem?_cons_succ]
  rw [List.getElem?_append_left inside, found]

/-- Above the frame pointer are the locals, counted upwards from it, and they are zero. The first
one is next to the pointer and the last one is on top of the stack. -/
theorem get_local (inside : index < locals) :
    m.stack.get (m.frame - (index + 1)) = .ok Value.zero := by
  obtain ⟨link, address, live⟩ := fresh.live
  have place : m.frame - (index + 1) = m.stack.top + (locals - (index + 1)) := by
    rw [fresh.frame]
    omega
  have above : locals - (index + 1) < (List.replicate locals Value.zero).length := by
    rw [List.length_replicate]
    omega
  rw [place, Stack.get_eq_ok_iff_live, live, List.getElem?_append_left above,
    List.getElem?_replicate_of_lt (by omega)]

end FreshFrame

/-- A call has turned its arguments round and put the linkage on top of them. They lay on the stack
`before`; a function that is entered finds the stack `after`. -/
structure Passed (arguments below : List Value) (before after : Stack) : Prop where
  fits : arguments.length < 2147483648
  live : ∃ address, after.live.toList =
    .scalar (Int32.ofNat arguments.length) :: .scalar address :: (arguments ++ below)
  trade : before.Trade arguments.length (arguments.length + 2) after

/-- A call turns the arguments round and puts the return address and the number of words to drop on
top of them. -/
theorem call_live {entry dropped : Nat} (live : m.stack.live.toList = values.reverse ++ below)
    (done : call entry values.length dropped m = .ok () n) :
    n.stack.live.toList =
        .scalar (Int32.ofNat dropped) :: .scalar (Int32.ofNat m.next) :: (values ++ below) ∧
      dropped < 2147483648 := by
  simp only [call, push, answer, bind_eq_ok_iff, get_eq_ok_iff, onStack_eq_ok_iff,
    observe_eq_ok_iff, int32OfNat_eq_ok_iff] at done
  obtain ⟨_, _, ⟨turned, reversed, rfl⟩, _, _, ⟨rfl, rfl⟩, _, _, ⟨⟨_, rfl⟩, rfl⟩, _, _,
    ⟨addressed, pushed, rfl⟩, _, _, ⟨⟨fits, rfl⟩, rfl⟩, _, _, ⟨counted, pushed', rfl⟩, ⟨⟩⟩ := done
  refine ⟨?_, fits⟩
  have all : values.reverse.length = values.length := List.length_reverse
  dsimp only at pushed ⊢
  rw [Stack.push_live pushed', Stack.push_live pushed, Stack.reverse_live reversed, live,
    List.take_left' all, List.drop_left' all, List.reverse_reverse]

/-- An entry behind a call makes the frame of the function. The call has left arguments and linkage
on top; the entry completes the linkage by the frame of the caller and reserves the locals. -/
theorem enter_fresh {before : Stack} (passed : Passed arguments below before m.stack)
    (done : enter locals m = .ok () n) : FreshFrame locals arguments below n := by
  obtain ⟨address, live⟩ := passed.live
  simp only [enter, push, setFrame, bind_eq_ok_iff, get_eq_ok_iff, onStack_eq_ok_iff] at done
  obtain ⟨_, caller, ⟨rfl, rfl⟩, _, _, ⟨linked, pushed, rfl⟩, _, _, ⟨rfl, rfl⟩, _, _, ⟨⟩, stack,
    reserved, rfl⟩ := done
  refine ⟨⟨Int32.ofNat caller.frame, address, ?_⟩, ?_, passed.fits⟩
  · dsimp only at reserved ⊢
    rw [Stack.reserve_live reserved, Stack.push_live pushed, live]
  · exact (Stack.reserve_eq_ok_iff.mp reserved).1.symm

/-- What a function finds that has been called with these arguments from `m` and has just been
entered in `n`: each argument under its number, zeros for its locals, and below the arguments
what the caller had there. -/
structure FindsArguments [Host σ] (locals : Nat) (arguments : List Value) (m n : Machine σ) :
    Prop where
  argument : ∀ index : Int32, 0 ≤ index → ∀ value, arguments[index.toInt.toNat]? = some value →
    n.load ⟨.arguments, index⟩ = .ok value
  zeros : ∀ index : Int32, 0 ≤ index → index.toInt.toNat < locals →
    n.load ⟨.locals, index⟩ = .ok Value.zero
  below : ∀ index, m.stack.top + arguments.length ≤ index →
    n.stack.words[index]? = m.stack.words[index]?

variable [Host σ]

/-- Loading finds the arguments and the locals where the lemmas above say they are. That the words
below are the caller's is assumed here, since it is a matter of the call and the entry. -/
theorem FreshFrame.findsArguments (fresh : FreshFrame locals arguments below n)
    (same : ∀ index, m.stack.top + arguments.length ≤ index →
      n.stack.words[index]? = m.stack.words[index]?) :
    FindsArguments locals arguments m n where
  argument index positive value found :=
    load_eq_ok_iff.mpr ⟨_, place_argument positive, fresh.get_argument found⟩
  zeros index positive inside := by
    have above : index.toInt.toNat < n.frame := by
      rw [fresh.frame]
      omega
    exact load_eq_ok_iff.mpr ⟨_, place_local positive above, fresh.get_local inside⟩
  below := same

/-- An instruction that opens a frame is an entry with its number of locals. The number has been
checked before, and behind the entry there is nothing left to do. -/
theorem enter_of_execute (opens : instruction.isEntry = true)
    (done : execute image instruction m = .ok flow n) :
    enter instruction.locals m = .ok () n := by
  cases instruction with
  | enter arguments locals | enterClosure arguments locals =>
    simp only [execute, answer, bind_eq_ok_iff, observe_eq_ok_iff, count_eq_ok_iff] at done
    obtain ⟨_, _, ⟨⟨_, rfl⟩, rfl⟩, ⟨⟩, _, done, ⟨⟩⟩ := done
    exact done
  | _ => cases opens

/-- The words that an entry finds are below the frame that it makes. Reserving locals moves the top
only, so the words below are those that the call has left there. -/
theorem Passed.findsArguments {behind : Nat} (passed : Passed arguments below m.stack s.stack)
    (opens : instruction.isEntry = true)
    (done : execute image instruction { s with next := behind } = .ok flow n) :
    FindsArguments instruction.locals arguments m n := by
  have entered := enter_of_execute opens done
  have fresh : FreshFrame instruction.locals arguments below n :=
    enter_fresh (m := { s with next := behind }) passed entered
  have opened := trades_enter instruction.locals _ _ _ entered
  refine fresh.findsArguments fun index deep => ?_
  have top := passed.trade.top
  rw [opened.below index (by dsimp only; omega), passed.trade.below index deep]

/-- A call goes to its address operand, with the arguments turned round. Address and count are
checked first, and the words that are reversed are as many as the count says. -/
theorem execute_call_passed {address operand : Int32}
    (live : m.stack.live.toList = values.reverse ++ below)
    (all : values.length = operand.toInt.toNat)
    (done : execute image (.call address operand) m = .ok flow n) :
    n.next = address.toInt.toNat ∧ Passed values below m.stack n.stack := by
  simp only [execute, answer, bind_eq_ok_iff, observe_eq_ok_iff, count_eq_ok_iff,
    target_eq_ok_iff] at done
  obtain ⟨_, _, ⟨⟨_, rfl⟩, rfl⟩, _, _, ⟨⟨_, rfl⟩, rfl⟩, ⟨⟩, _, called, ⟨⟩⟩ := done
  rw [← all] at called
  obtain ⟨linked, fits⟩ := call_live live called
  exact ⟨call_next called, fits, ⟨_, linked⟩, trades_call _ _ _ _ _ _ called⟩

/-- The call of a closure goes to its entry, and the closure stays behind the arguments. It is
looked at and not taken, so on the stack it is one argument more, and it is counted as one when the
function drops them. -/
theorem execute_callClosure_passed {operand : Int32} {closure : Ref}
    (live : m.stack.live.toList = values.reverse ++ .ref closure :: below)
    (all : values.length = operand.toInt.toNat)
    (done : execute image (.callClosure operand) m = .ok flow n) :
    Host.entry closure m.host = .ok n.next ∧
      Passed (values ++ [.ref closure]) below m.stack n.stack := by
  have enough := Stack.length_live m.stack
  rw [live, List.length_append, List.length_cons, List.length_reverse, Stack.capacity] at enough
  simp only [execute, callClosure, askHost, answer, bind_eq_ok_iff, observe_eq_ok_iff,
    count_eq_ok_iff, Stack.peek_eq_ok_iff_live, expectRef_eq_ok_iff, Answer.bind_eq_ok_iff,
    int32OfNat_eq_ok_iff, target_eq_ok_iff] at done
  obtain ⟨_, _, ⟨⟨_, rfl⟩, rfl⟩, ⟨⟩, _, ⟨word, _, ⟨peeked, rfl⟩, found, _, ⟨rfl, rfl⟩, entry, _,
    ⟨entered, rfl⟩, offset, _, ⟨⟨_, ⟨small, rfl⟩, _, rfl⟩, rfl⟩, called⟩, ⟨⟩⟩ := done
  have length : values.reverse.length = operand.toInt.toNat := by rw [List.length_reverse, all]
  rw [live, List.getElem?_append_right (Nat.le_of_eq length), length, Nat.sub_self] at peeked
  cases peeked
  rw [toNat_ofNat small, ← all] at called
  obtain ⟨linked, fits⟩ := call_live live called
  have one : (values ++ [Value.ref closure]).length = values.length + 1 := by
    rw [List.length_append, List.length_singleton]
  constructor
  · rw [call_next called]
    exact entered
  · refine ⟨one ▸ fits, ?_, ?_⟩
    · rw [linked, one, List.append_assoc]
      exact ⟨_, rfl⟩
    · rw [one]
      exact (trades_call _ _ _ _ _ _ called).widen 1 (by omega)

/-- If a call and then an entry succeed, whatever the machine they start from, the function finds
its arguments. For a call these are the words that lay on top of the stack, the deepest one
first, and it goes on at its address operand. For the call of a closure the closure comes
behind them as the last one, and it goes on where the closure is entered. -/
theorem functions_find_arguments (live : m.stack.live.toList = values.reverse ++ below)
    {behind : Nat} {flow' : Flow} (called : advance image m = .ok flow s)
    (fetched : fetch image s.next = .ok (instruction, behind))
    (opens : instruction.isEntry = true) (entered : advance image s = .ok flow' n) :
    (∀ address operand after, fetch image m.next = .ok (.call address operand, after) →
        values.length = operand.toInt.toNat →
        s.next = address.toInt.toNat ∧ FindsArguments instruction.locals values m n) ∧
      ∀ operand after closure rest, fetch image m.next = .ok (.callClosure operand, after) →
        values.length = operand.toInt.toNat → below = .ref closure :: rest →
        Host.entry closure m.host = .ok s.next ∧
          FindsArguments instruction.locals (values ++ [.ref closure]) m n := by
  have opened := executed_of_advance fetched entered
  constructor
  · intro address operand after read all
    obtain ⟨next, passed⟩ := execute_call_passed (m := { m with next := after }) live all
      (executed_of_advance read called)
    exact ⟨next, passed.findsArguments (m := m) opens opened⟩
  · rintro operand after closure rest read all rfl
    obtain ⟨next, passed⟩ := execute_callClosure_passed (m := { m with next := after }) live all
      (executed_of_advance read called)
    exact ⟨next, passed.findsArguments (m := m) opens opened⟩

/-- A program that calls a closure with two arguments. Where the local of the closure's function
comes to lie, the program has left a word behind. -/
def twoArguments : Image where
  strings := #[]
  publics := []
  code := (([.enter 2 0, .closure 57 [], .constant 10, .constant 3, .constant 8, .constant 8,
    .constant 8, .constant 8, .drop, .drop, .drop, .drop, .callClosure 2, .enterClosure 3 1] :
    List Instruction).flatMap Instruction.encode).toArray
  globals := 0

/-- The function finds both arguments, the closure behind them, and a zero. Where the local is
there was another number before, which the entry has overwritten. -/
theorem functions_find_arguments_twoArguments :
    ∃ m s n : Machine Workspace,
      m.stack.live.toList = [.scalar 3, .scalar 10, .ref ⟨0⟩, .scalar 12, .scalar 2, .scalar (-1),
        .scalar 0, .scalar 0] ∧
      m.stack.words[m.stack.top - 4]? = some (.scalar 8) ∧
      advance twoArguments m = .ok .next s ∧ advance twoArguments s = .ok .next n ∧
      Host.entry ⟨0⟩ m.host = .ok s.next ∧ n.load ⟨.arguments, 0⟩ = .ok (.scalar 10) ∧
      n.load ⟨.arguments, 1⟩ = .ok (.scalar 3) ∧ n.load ⟨.arguments, 2⟩ = .ok (.ref ⟨0⟩) ∧
      n.load ⟨.locals, 0⟩ = .ok (.scalar 0) := by
  obtain ⟨first, made, done, words, stale⟩ :
      ∃ first, (Machine.start twoArguments 16 .boundless (Workspace.ofInput [] {})).2 = .ok first ∧
        (record twoArguments 14 [] first).1.map (·.instruction) =
          [.enterClosure 3 1, .callClosure 2, .drop, .drop, .drop, .drop, .constant 8, .constant 8,
            .constant 8, .constant 8, .constant 3, .constant 10, .closure 57 [], .enter 2 0] ∧
        (record twoArguments 14 [] first).1[1]?.map (·.before.stack.live.toList) =
          some [.scalar 3, .scalar 10, .ref ⟨0⟩, .scalar 12, .scalar 2, .scalar (-1), .scalar 0,
            .scalar 0] ∧
        (record twoArguments 14 [] first).1[1]?.map
          (fun call => call.before.stack.words[call.before.stack.top - 4]?) =
            some (some (.scalar 8)) :=
    ⟨_, rfl, by decide +kernel, by decide +kernel, by decide +kernel⟩
  have history := (History.start made).record 14
  obtain ⟨opened, past, turns, opens, done⟩ := List.map_eq_cons_iff.mp done
  obtain ⟨call, past, rfl, calls, _⟩ := List.map_eq_cons_iff.mp done
  rw [turns] at history words stale
  obtain ⟨earlier, between⟩ := history.consecutive
  obtain ⟨_, fetched, entered⟩ := history.last
  obtain ⟨_, read, called⟩ := earlier.last
  rw [between] at called
  have live : call.before.stack.live.toList = [Value.scalar 10, .scalar 3].reverse ++
      [.ref ⟨0⟩, .scalar 12, .scalar 2, .scalar (-1), .scalar 0, .scalar 0] := Option.some.inj words
  have finds := functions_find_arguments live called fetched (by rw [opens]; rfl) entered
  rw [calls] at read
  obtain ⟨entry, finds⟩ := finds.2 _ _ ⟨0⟩ _ read rfl rfl
  rw [opens] at finds
  exact ⟨_, _, _, live, Option.some.inj stale, called, entered, entry,
    finds.argument 0 (by decide) _ rfl, finds.argument 1 (by decide) _ rfl,
    finds.argument 2 (by decide) _ rfl, finds.zeros 0 (by decide) (by decide)⟩

end Machine

end BytecodeMachine
