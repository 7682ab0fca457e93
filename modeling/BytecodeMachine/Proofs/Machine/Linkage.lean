import BytecodeMachine.Proofs.Machine.Trade
import BytecodeMachine.Proofs.Size
/-!
# Linkage

What ties a function to its caller is kept on the stack, where nothing protects it: a
call leaves the return address and the number of arguments on top of the arguments, an
entry puts the caller's frame pointer on top of them, and leaving takes all three back.

Each of the three is described here by itself, for whatever state it starts in. Nothing
is said about what happens to the linkage in between.
-/
namespace BytecodeMachine

/-- How many words the return from a call takes from the stack, beside the linkage. A
closure that is called is one of them. -/
def Instruction.dropped : Instruction → Nat
  | .call _ arguments => arguments.toInt.toNat
  | .callClosure arguments => arguments.toInt.toNat + 1
  | _ => 0

namespace Machine

open BytecodeMachine.Action

variable {σ : Type} {m n : Machine σ} {flow : Flow} {image : Image} {instruction : Instruction}

/-- What a call does, given how many words the return from it drops. -/
structure Called (dropped : Nat) (m n : Machine σ) : Prop where
  frame : n.frame = m.frame
  depth : n.depth = m.depth + 1
  trade : m.stack.Trade dropped (dropped + 2) n.stack
  argumentCount : n.stack.get n.stack.top = .ok (.scalar (Int32.ofNat dropped))
  returnAddress : n.stack.get (n.stack.top + 1) = .ok (.scalar (Int32.ofNat m.next))
  dropped_fits : dropped < 2147483648
  next_fits : m.next < 2147483648

/-- The arguments a call reverses may be fewer than the words its return drops, as for a
closure, which stays where it is. -/
theorem call_called {entry arguments dropped : Nat}
    (enough : m.stack.top + dropped ≤ m.stack.words.size) (more : arguments ≤ dropped)
    (done : call entry arguments dropped m = .ok () n) : Called dropped m n := by
  have trade := (trades_call entry arguments dropped m () n done).widen (dropped - arguments)
    (by omega)
  rw [Nat.add_right_comm, Nat.add_sub_cancel' more] at trade
  simp only [call, push, answer, bind_eq_ok_iff, get_eq_ok_iff, onStack_eq_ok_iff,
    observe_eq_ok_iff, int32OfNat_eq_ok_iff] at done
  obtain ⟨_, _, ⟨stack₁, reversed, rfl⟩, _, _, ⟨rfl, rfl⟩, _, _, ⟨⟨nextFits, rfl⟩, rfl⟩, _, _,
    ⟨stack₂, pushed, rfl⟩, _, _, ⟨⟨droppedFits, rfl⟩, rfl⟩, _, _, ⟨stack₃, pushed', rfl⟩, ⟨⟩⟩ :=
    done
  have below : stack₃.top + 1 = stack₂.top := (Stack.push_eq_ok_iff.mp pushed').1
  refine ⟨rfl, rfl, trade, Stack.get_top_of_push pushed', ?_, droppedFits, nextFits⟩
  rw [below]
  exact ((Stack.push_trade pushed').get (Nat.le_refl _)).mpr (Stack.get_top_of_push pushed)

/-- What an entry does, given how many locals it makes: the caller's frame pointer goes on
the stack, and where it is becomes the frame pointer. -/
structure Entered (locals : Nat) (m n : Machine σ) : Prop where
  frame : n.frame + 1 = m.stack.top
  depth : n.depth = m.depth
  trade : m.stack.Trade 0 (locals + 1) n.stack
  link : n.stack.get n.frame = .ok (.scalar (Int32.ofNat m.frame))

/-- What an entry that succeeds has done, each part read off the three steps it is made of. -/
theorem enter_entered {locals : Nat} (done : enter locals m = .ok () n) : Entered locals m n := by
  have trade := trades_enter locals m () n done
  simp only [enter, push, setFrame, bind_eq_ok_iff, get_eq_ok_iff, onStack_eq_ok_iff] at done
  obtain ⟨_, _, ⟨rfl, rfl⟩, _, _, ⟨stack₁, pushed, rfl⟩, _, _, ⟨rfl, rfl⟩, _, _, ⟨⟩, stack₂,
    reserved, rfl⟩ := done
  refine ⟨(Stack.push_eq_ok_iff.mp pushed).1, rfl, trade, ?_⟩
  exact ((Stack.reserve_trade reserved).get (Nat.le_refl _)).mpr (Stack.get_top_of_push pushed)

/-- The word on top is taken and nothing else changes. -/
theorem pop_eq_ok_iff {value : Value} :
    pop m = .ok value n ↔ ∃ stack, m.stack.pop = .ok value stack ∧ n = { m with stack } :=
  onStack_eq_ok_iff

/-- What is popped next has been below the top. -/
theorem peek_of_pops {value below : Value} {t : Machine σ} (popped : pop m = .ok value n)
    (popped' : pop n = .ok below t) : m.stack.peek 1 = .ok below := by
  obtain ⟨first, topmost, rfl⟩ := pop_eq_ok_iff.mp popped
  obtain ⟨second, found, rfl⟩ := pop_eq_ok_iff.mp popped'
  obtain ⟨_, top, words⟩ := Stack.pop_eq_ok_iff.mp topmost
  obtain ⟨found, _, _⟩ := Stack.pop_eq_ok_iff.mp found
  rw [words, top] at found
  exact Stack.peek_eq_ok_iff.mpr found

/-- A word is read as a number if it is one. The context is for the fault. -/
theorem expectScalar_eq_ok_iff {context : Context} {value : Value} {number : Int32} :
    Answer.during context value.expectScalar = .ok number ↔ value = .scalar number := by
  cases value <;> simp [Value.expectScalar, Answer.during]

/-- The saved frame pointer was a number that is not negative. The word is taken before it is
looked at, and the bound of the stack is the other thing that is checked. -/
theorem popLink_ok {pointer : Nat} (done : popLink m = .ok pointer n) :
    ∃ number stack, m.stack.pop = .ok (.scalar number) stack ∧ 0 ≤ number ∧
      pointer = number.toInt.toNat ∧ n = { m with stack } := by
  simp only [popLink, pop_eq_ok_iff, answer, bind_eq_ok_iff, get_eq_ok_iff, observe_eq_ok_iff,
    expectScalar_eq_ok_iff] at done
  obtain ⟨_, _, ⟨stack, popped, rfl⟩, number, _, ⟨rfl, rfl⟩, _, _, ⟨rfl, rfl⟩, done⟩ := done
  split at done
  · next inside =>
    cases done
    exact ⟨number, stack, popped, inside.1, rfl, rfl⟩
  · cases done

/-- So was the number of arguments, of which only the sign is checked. That so many words are there
is for the drop behind it to say. -/
theorem popArgumentCount_ok {count : Nat} (done : popArgumentCount m = .ok count n) :
    ∃ number stack, m.stack.pop = .ok (.scalar number) stack ∧ 0 ≤ number ∧
      count = number.toInt.toNat ∧ n = { m with stack } := by
  simp only [popArgumentCount, pop_eq_ok_iff, answer, bind_eq_ok_iff, observe_eq_ok_iff,
    expectScalar_eq_ok_iff] at done
  obtain ⟨_, _, ⟨stack, popped, rfl⟩, number, _, ⟨rfl, rfl⟩, done⟩ := done
  split at done
  · cases done
  · next inside =>
    cases done
    exact ⟨number, stack, popped, Int32.not_lt.mp inside, rfl, rfl⟩

/-- The address to return to was a number. Nothing else is asked of it here, as the one that ends
the run is negative. -/
theorem popReturn_ok {address : Int32} (done : popReturn m = .ok address n) :
    ∃ stack, m.stack.pop = .ok (.scalar address) stack ∧ n = { m with stack } := by
  simp only [popReturn, pop_eq_ok_iff, answer, bind_eq_ok_iff, observe_eq_ok_iff,
    expectScalar_eq_ok_iff] at done
  obtain ⟨_, _, ⟨stack, popped, rfl⟩, rfl, rfl⟩ := done
  exact ⟨stack, popped, rfl⟩

/-- An address is a target if it is inside the code, and then it is its own offset. Whether an
instruction begins there is not asked. -/
theorem target_eq_ok_iff {address : Int32} {offset : Nat} :
    target image address = .ok offset ↔
      (0 ≤ address ∧ address.toInt.toNat < image.code.size) ∧ offset = address.toInt.toNat := by
  unfold target
  split
  · next inside =>
    simp only [Except.ok.injEq, inside, and_self, true_and]
    exact eq_comm
  · next outside => simp only [reduceCtorEq, outside, false_and]

/-- What leaving does to the stack and to the frame pointer, given the words that it finds.
Whatever the function has left on the stack is discarded, the linkage and the arguments are
taken, and the word that was on top is put in their place. -/
structure Left (pointer count address : Int32) (result : Value) (m n : Machine σ) : Prop where
  last : m.stack.get m.stack.top = .ok result
  above : m.stack.top < m.frame
  link : m.stack.get m.frame = .ok (.scalar pointer)
  argumentCount : m.stack.get (m.frame + 1) = .ok (.scalar count)
  returnAddress : m.stack.get (m.frame + 2) = .ok (.scalar address)
  frame : n.frame = pointer.toInt.toNat
  top : n.stack.top + 1 = m.frame + 3 + count.toInt.toNat
  answered : n.stack.get n.stack.top = .ok result
  below : ∀ index, n.stack.top < index → n.stack.words[index]? = m.stack.words[index]?

/-- Leaving for nowhere ends the run and leaves the depth as it is. Otherwise it goes on at the
return address, one call less deep. -/
theorem leave_left (done : leave image m = .ok flow n) :
    ∃ pointer count address result, Left pointer count address result m n ∧
      ((address = nowhere ∧ flow = .halt ∧ n.depth = m.depth) ∨
        (address ≠ nowhere ∧ flow = .next ∧ n.depth = m.depth - 1 ∧
          n.next = address.toInt.toNat)) := by
  simp only [leave, push, pop_eq_ok_iff, setFrame, answer, bind_eq_ok_iff, get_eq_ok_iff,
    onStack_eq_ok_iff] at done
  obtain ⟨result, _, ⟨stack₁, popped, rfl⟩, _, _, ⟨rfl, rfl⟩, _, _, ⟨stack₂, cleared, rfl⟩, frame,
    _, linked, arguments, _, counted, address, _, addressed, _, _, ⟨stack₆, dropped, rfl⟩, _, _,
    ⟨stack₇, pushed, rfl⟩, _, _, ⟨⟩, done⟩ := done
  obtain ⟨pointer, stack₃, popped₃, _, rfl, rfl⟩ := popLink_ok linked
  obtain ⟨count, stack₄, popped₄, _, rfl, rfl⟩ := popArgumentCount_ok counted
  obtain ⟨stack₅, popped₅, rfl⟩ := popReturn_ok addressed
  refine ⟨pointer, count, address, result, ?_⟩
  dsimp only at cleared popped₃ popped₄ popped₅ dropped pushed
  obtain ⟨present, top₁, words₁⟩ := Stack.pop_eq_ok_iff.mp popped
  obtain ⟨above, top₂, words₂⟩ := Stack.setTop_eq_ok_iff.mp cleared
  obtain ⟨link, top₃, words₃⟩ := Stack.pop_eq_ok_iff.mp popped₃
  obtain ⟨argumentCount, top₄, words₄⟩ := Stack.pop_eq_ok_iff.mp popped₄
  obtain ⟨returnAddress, top₅, words₅⟩ := Stack.pop_eq_ok_iff.mp popped₅
  obtain ⟨top₆, words₆⟩ := Stack.drop_eq_ok_iff.mp dropped
  obtain ⟨top₇, words₇⟩ := Stack.push_eq_ok_iff.mp pushed
  rw [words₂, words₁, top₂] at link
  rw [words₃, words₂, words₁, top₃, top₂] at argumentCount
  rw [words₄, words₃, words₂, words₁, top₄, top₃, top₂] at returnAddress
  rw [words₆, words₅, words₄, words₃, words₂, words₁] at words₇
  have deep : m.stack.top < m.frame := by omega
  have last := Stack.get_eq_ok_iff.mpr ⟨Nat.le_refl _, present⟩
  have link := Stack.get_eq_ok_iff.mpr ⟨by omega, link⟩
  have argumentCount := Stack.get_eq_ok_iff.mpr ⟨by omega, argumentCount⟩
  have returnAddress := Stack.get_eq_ok_iff.mpr ⟨by omega, returnAddress⟩
  have top : stack₇.top + 1 = m.frame + 3 + count.toInt.toNat := by omega
  have below : ∀ index, stack₇.top < index → stack₇.words[index]? = m.stack.words[index]? := by
    intro index deeper
    rw [words₇, Array.getElem?_setIfInBounds_ne (by omega)]
  have answered := Stack.get_top_of_push pushed
  split at done
  · next away =>
    cases done
    exact ⟨⟨last, deep, link, argumentCount, returnAddress, rfl, top, answered, below⟩,
      .inl ⟨away, rfl, rfl⟩⟩
  · next somewhere =>
    simp only [bind_eq_ok_iff, observe_eq_ok_iff] at done
    obtain ⟨offset, _, ⟨targeted, rfl⟩, _, _, ⟨⟩, ⟨⟩⟩ := done
    obtain ⟨_, rfl⟩ := target_eq_ok_iff.mp (Answer.during_eq_ok_iff.mp targeted)
    exact ⟨⟨last, deep, link, argumentCount, returnAddress, rfl, top, answered, below⟩,
      .inr ⟨somewhere, rfl, rfl, rfl⟩⟩

variable [Host σ]

/-- Both instructions that call put the linkage on the stack in the same way. They differ in how
many words are dropped on return. -/
theorem execute_called (calls : instruction.isCall = true)
    (done : execute image instruction m = .ok flow n) : Called instruction.dropped m n := by
  cases instruction with
  | call address arguments =>
    simp only [execute, answer, bind_eq_ok_iff, observe_eq_ok_iff, count_eq_ok_iff] at done
    obtain ⟨_, _, ⟨⟨_, rfl⟩, rfl⟩, entry, _, ⟨_, rfl⟩, ⟨⟩, _, done, ⟨⟩⟩ := done
    exact call_called (trades_call _ _ _ _ _ _ done).enough (Nat.le_refl _) done
  | callClosure arguments =>
    simp only [execute, callClosure, askHost, answer, bind_eq_ok_iff, observe_eq_ok_iff,
      count_eq_ok_iff, Stack.peek_eq_ok_iff] at done
    obtain ⟨_, _, ⟨⟨_, rfl⟩, rfl⟩, ⟨⟩, _, ⟨word, _, ⟨peeked, rfl⟩, closure, _, ⟨_, rfl⟩, entry, _,
      ⟨_, rfl⟩, offset, _, ⟨_, rfl⟩, done⟩, ⟨⟩⟩ := done
    have inside := (Array.getElem?_eq_some_iff.mp peeked).1
    exact call_called (by simp only [Instruction.dropped]; omega) (Nat.le_succ _) done
  | _ => cases calls

/-- Both instructions that open a frame do what an entry does. They differ in the opcode alone: the
number of arguments that they have as an operand is never looked at. -/
theorem execute_entered (opens : instruction.isEntry = true)
    (done : execute image instruction m = .ok flow n) : ∃ locals, Entered locals m n := by
  cases instruction with
  | enter arguments locals =>
    simp only [execute, answer, bind_eq_ok_iff, observe_eq_ok_iff, count_eq_ok_iff] at done
    obtain ⟨size, _, ⟨_, rfl⟩, ⟨⟩, _, done, ⟨⟩⟩ := done
    exact ⟨size, enter_entered done⟩
  | enterClosure arguments locals =>
    simp only [execute, answer, bind_eq_ok_iff, observe_eq_ok_iff, count_eq_ok_iff] at done
    obtain ⟨size, _, ⟨_, rfl⟩, ⟨⟩, _, done, ⟨⟩⟩ := done
    exact ⟨size, enter_entered done⟩
  | _ => cases opens

end Machine

end BytecodeMachine
