import BytecodeMachine.Proofs.Machine.Reach
/-!
# What instructions trade on the stack

An instruction that succeeds takes some words from the stack and leaves some in their
place. For most instructions the two numbers are known from the operands, and what
lies below the words that are taken stays as it was.

Stores are left out, since they may replace a word further down, and so is leaving,
which clears whatever a function has left on the stack.
-/
namespace BytecodeMachine

/-- How many words an instruction takes and leaves, if its operands tell and it reaches no
other word. -/
def Instruction.trade? : Instruction → Option (Nat × Nat)
  | .store _ | .storeThrough | .storeElement | .leave => none
  | .binary _ | .element | .test .sameString => some (2, 1)
  | .swap => some (2, 2)
  | .drop | .jumpIfZero _ | .jumpUnlessZero _ => some (1, 0)
  | .matchAggregate _ _ | .matchArray _ | .test _ | .writeNumber | .length | .print => some (1, 1)
  | .aggregate _ size | .array size => some (size.toInt.toNat, 1)
  | .call _ arguments | .callClosure arguments =>
    some (arguments.toInt.toNat, arguments.toInt.toNat + 2)
  | .enter _ locals | .enterClosure _ locals => some (0, locals.toInt.toNat + 1)
  | .jump _ | .line _ | .stop | .ret | .failure _ _ => some (0, 0)
  | .constant _ | .string _ | .duplicate | .load _ | .loadPlace _ | .closure _ _ | .readNumber =>
    some (0, 1)

namespace Machine

open BytecodeMachine.Action

variable {σ α β : Type} {m n : Machine σ} {a : α}

/-- Work on the stack succeeds if it does so on the stack alone, and nothing else has changed. The
machine that is left is the old one with the stack that is left. -/
theorem onStack_eq_ok_iff {action : Action Stack α} :
    onStack action m = .ok a n ↔
      ∃ stack, action m.stack = .ok a stack ∧ n = { m with stack } := by
  simp only [onStack]
  cases action m.stack with
  | ok found stack =>
    simp only [EStateM.Result.ok.injEq]
    constructor
    · rintro ⟨rfl, rfl⟩
      exact ⟨stack, ⟨rfl, rfl⟩, rfl⟩
    · rintro ⟨_, ⟨rfl, rfl⟩, rfl⟩
      exact ⟨rfl, rfl⟩
  | error cause stack => simp

/-- Work on the host succeeds if it does so on the host alone. The stack, the globals and the
registers are those of before. -/
theorem onHost_eq_ok_iff {action : Action σ α} :
    onHost action m = .ok a n ↔ ∃ host, action m.host = .ok a host ∧ n = { m with host } := by
  simp only [onHost]
  cases action m.host with
  | ok found host =>
    simp only [EStateM.Result.ok.injEq]
    constructor
    · rintro ⟨rfl, rfl⟩
      exact ⟨host, ⟨rfl, rfl⟩, rfl⟩
    · rintro ⟨_, ⟨rfl, rfl⟩, rfl⟩
      exact ⟨rfl, rfl⟩
  | error cause host => simp

/-- Whenever the action answers, it has traded `taken` words of the stack for `given` ones. -/
def Trades (taken given : Nat) (action : Action (Machine σ) α) : Prop :=
  ∀ m a n, action m = .ok a n → m.stack.Trade taken given n.stack

variable {taken given taken' given' : Nat}

/-- Two trades in a row. What the second takes beyond what the first has given is taken from
below, and what the first has given beyond that stays on top: the two subtractions, of which one
is zero. -/
theorem Trades.bind {first : Action (Machine σ) α} {next : α → Action (Machine σ) β}
    (begins : Trades taken given first) (goesOn : ∀ a, Trades taken' given' (next a)) :
    Trades (taken + (taken' - given)) (given' + (given - taken')) (first >>= next) := by
  intro m b n ended
  obtain ⟨a, u, earlier, later⟩ := bind_eq_ok_iff.mp ended
  exact (begins m a u earlier).trans (goesOn a u b n later)

/-- Trades put together from several are reckoned at the end. -/
theorem Trades.cast {action : Action (Machine σ) α} (trades : Trades taken' given' action)
    (takes : taken' = taken) (gives : given' = given) : Trades taken given action := by
  rwa [← takes, ← gives]

/-- An action that leaves the stack alone trades nothing. -/
theorem trades_of_keeps {action : Action (Machine σ) α} (keeps : Keeps Machine.stack action) :
    Trades 0 0 action := by
  intro m a n ended
  rw [keeps.of_ok ended]
  exact Stack.Trade.refl _

/-- After such an action the trade is that of what follows. -/
theorem Trades.after {first : Action (Machine σ) α} {next : α → Action (Machine σ) β}
    (keeps : Keeps Machine.stack first) (goesOn : ∀ a, Trades taken given (next a)) :
    Trades taken given (first >>= next) := by
  simpa using (trades_of_keeps keeps).bind goesOn

/-- What follows an answer that is known may use it. -/
theorem Trades.afterAnswer {look : Answer α} {next : α → Action (Machine σ) β}
    (goesOn : ∀ a, look = .ok a → Trades taken given (next a)) :
    Trades taken given (answer look >>= next) := by
  intro m b n ended
  obtain ⟨a, u, answered, later⟩ := bind_eq_ok_iff.mp ended
  obtain ⟨known, rfl⟩ := observe_eq_ok_iff.mp answered
  exact goesOn a known _ b n later

/-- What never answers has made every trade. -/
theorem trades_throw (cause : Fault) : Trades taken given (throw cause : Action (Machine σ) α) := by
  intro m a n ended
  cases ended

/-- The trade of the stack is the trade of the machine. -/
theorem trades_onStack {action : Action Stack α}
    (trade : ∀ s a t, action s = .ok a t → Stack.Trade taken given s t) :
    Trades taken given (onStack action : Action (Machine σ) α) := by
  intro m a n ended
  obtain ⟨stack, done, rfl⟩ := onStack_eq_ok_iff.mp ended
  exact trade m.stack a stack done

/-- A push gives one word. -/
theorem trades_push (value : Value) : Trades 0 1 (push value : Action (Machine σ) Unit) :=
  trades_onStack fun _ _ _ => Stack.push_trade

/-- Taking a word gives none. -/
theorem trades_pop : Trades 1 0 (pop : Action (Machine σ) Value) :=
  trades_onStack fun _ _ _ => Stack.pop_trade

/-- A word that is popped first is taken besides what is taken afterwards. -/
theorem Trades.afterPop {next : Value → Action (Machine σ) β}
    (goesOn : ∀ word, Trades taken given (next word)) :
    Trades (taken + 1) given (pop >>= next) := by
  refine (trades_pop.bind goesOn).cast ?_ ?_
  · omega
  · omega

/-- Dropping takes as many as are dropped. -/
theorem trades_drop (count : Nat) :
    Trades count 0 (onStack (Stack.drop count) : Action (Machine σ) Unit) :=
  trades_onStack fun _ _ _ => Stack.drop_trade

/-- Reserving gives as many as are reserved. -/
theorem trades_reserve (count : Nat) :
    Trades 0 count (onStack (Stack.reserve count) : Action (Machine σ) Unit) :=
  trades_onStack fun _ _ _ => Stack.reserve_trade

/-- Reversing takes the words on top and gives them back in another order. -/
theorem trades_reverse (count : Nat) :
    Trades count count (onStack (Stack.reverse count) : Action (Machine σ) Unit) :=
  trades_onStack fun _ _ _ => Stack.reverse_trade

/-- An answer alone trades nothing. -/
theorem trades_pure (a : α) : Trades 0 0 (pure a : Action (Machine σ) α) :=
  trades_of_keeps (keeps_pure a)

/-- How an instruction ends that answers nothing of its own. -/
theorem Trades.thenPure {first : Action (Machine σ) α} (trades : Trades taken given first) (b : β) :
    Trades taken given (first >>= fun _ => pure b) := by
  simpa using trades.bind fun _ => trades_pure b

/-- The host does not touch the stack. -/
theorem keeps_stack_onHost (action : Action σ α) : Keeps Machine.stack (onHost action) := by
  intro m
  simp only [Ends, onHost]
  cases action m.host <;> rfl

/-- Nor does a jump. -/
theorem keeps_stack_jumpTo (offset : Nat) :
    Keeps Machine.stack (jumpTo offset : Action (Machine σ) Unit) := keeps_modify fun _ => rfl

/-- The words are reversed before they are taken, which makes no difference: they are traded for
themselves and then for the reference. Making the object does not touch the stack. -/
theorem trades_gather (size : Nat) (make : Array Value → Action σ Ref) :
    Trades size 1 (gather size make) := by
  have replaced (object : Ref) : Trades size 1 (do
      onStack (Stack.drop size)
      push (.ref object) : Action (Machine σ) Unit) :=
    ((trades_drop size).bind fun _ => trades_push _).cast (by omega) (by omega)
  refine ((trades_reverse size).bind fun _ => Trades.after (keeps_observe _) fun words =>
    Trades.after (keeps_stack_onHost _) replaced).cast ?_ ?_
  · omega
  · omega

/-- A branch takes the word it tests. Whether it jumps or not, it does nothing else to the
stack. -/
theorem trades_branch (image : Image) (address : Int32) (fit : Int32 → Bool) :
    Trades 1 0 (branch image address fit : Action (Machine σ) Unit) := by
  have jumps (offset : Action (Machine σ) Nat) (keeps : Keeps Machine.stack offset) (fits : Bool) :
      Trades 0 0 (if fits then (do jumpTo (← offset)) else pure () : Action (Machine σ) Unit) := by
    apply trades_of_keeps
    split
    · exact keeps.bind fun _ => keeps_stack_jumpTo _
    · exact keeps_pure _
  refine Trades.afterPop fun word => Trades.after (keeps_answer _) fun number => ?_
  exact jumps _ (keeps_answer _) (fit number)

/-- An entry gives the saved frame pointer and the locals. -/
theorem trades_enter (locals : Nat) :
    Trades 0 (locals + 1) (enter locals : Action (Machine σ) Unit) := by
  refine Trades.cast (Trades.after keeps_get fun _ => (trades_push _).bind fun _ =>
    Trades.after keeps_get fun _ => Trades.after (keeps_modify fun _ => rfl) fun _ =>
      trades_reserve locals) ?_ ?_
  · omega
  · omega

/-- The arguments stay, and the linkage goes on top of them. -/
theorem trades_call (entry arguments dropped : Nat) :
    Trades arguments (arguments + 2) (call entry arguments dropped : Action (Machine σ) Unit) := by
  refine Trades.cast ((trades_reverse arguments).bind fun _ => Trades.after keeps_get fun _ =>
    Trades.after (keeps_answer _) fun _ => (trades_push _).bind fun _ =>
      Trades.after (keeps_answer _) fun _ => (trades_push _).bind fun _ =>
        trades_of_keeps (keeps_modify fun _ => rfl)) ?_ ?_
  · omega
  · omega

/-- A count is an operand that is not negative. -/
theorem count_eq_ok_iff {operand : Int32} {size : Nat} :
    count operand = .ok size ↔ 0 ≤ operand ∧ size = operand.toInt.toNat := by
  unfold count
  split
  · next negative => simp [Int32.not_le.mpr negative]
  · next positive => simp [Int32.not_lt.mp positive, eq_comm]

/-- A count that is no count is a fault, so what follows may take the operand for it. -/
theorem Trades.afterCount {operand : Int32} {next : Nat → Action (Machine σ) β}
    (goesOn : Trades taken given (next operand.toInt.toNat)) :
    Trades taken given (answer (count operand) >>= next) := by
  refine Trades.afterAnswer fun size known => ?_
  rw [(count_eq_ok_iff.mp known).2]
  exact goesOn

variable [Host σ]

/-- The pattern for equal strings takes two words and gives the answer. -/
theorem trades_sameString : Trades 2 1 (test .sameString : Action (Machine σ) Unit) := by
  refine Trades.afterPop fun y => Trades.afterPop fun x => ?_
  exact Trades.after (keeps_observe _) fun _ => trades_push _

/-- All other patterns take one word and give the answer. -/
theorem trades_test {pattern : Pattern} (single : pattern ≠ .sameString) :
    Trades 1 1 (test pattern : Action (Machine σ) Unit) := by
  cases pattern with
  | sameString => exact absurd rfl single
  | _ =>
    refine Trades.afterPop fun word => ?_
    exact Trades.after keeps_get fun _ => trades_push _

/-- Before it calls, a closure is only looked for, so the trade is that of the call. -/
theorem trades_callClosure (image : Image) (arguments : Nat) :
    Trades arguments (arguments + 2) (callClosure image arguments : Action (Machine σ) Unit) :=
  Trades.after (keeps_observe _) fun _ => Trades.after (keeps_answer _) fun _ =>
    Trades.after (keeps_observe _) fun _ => Trades.after (keeps_answer _) fun _ => trades_call _ _ _

/-- Every instruction that succeeds makes its trade. Proof: by cases on the instruction, as a
sequence of small trades. Looking at the machine, asking the host and jumping trade nothing, and
the others add up to the declared counts. -/
theorem execute_trades (image : Image) (instruction : Instruction)
    (fixed : instruction.trade? = some (taken, given)) :
    Trades taken given (execute image instruction : Action (Machine σ) Flow) := by
  cases instruction with
  | binary operator =>
    cases fixed
    refine Trades.afterPop fun y => Trades.afterPop fun x => ?_
    exact Trades.after (keeps_answer _) fun _ => (trades_push _).thenPure _
  | constant number =>
    cases fixed
    exact (trades_push _).thenPure _
  | string offset =>
    cases fixed
    exact Trades.after (keeps_answer _) fun _ => Trades.after (keeps_stack_onHost _) fun _ =>
      (trades_push _).thenPure _
  | aggregate name arity =>
    cases fixed
    exact Trades.afterCount (Trades.after (keeps_answer _) fun _ => Trades.after (keeps_observe _)
      fun _ => (trades_gather _ _).thenPure _)
  | jump address =>
    cases fixed
    exact Trades.after (keeps_answer _) fun _ => Trades.after (keeps_stack_jumpTo _) fun _ =>
      trades_pure _
  | ret =>
    cases fixed
    exact trades_throw _
  | drop =>
    cases fixed
    exact trades_pop.thenPure _
  | duplicate =>
    cases fixed
    exact Trades.after (keeps_observe _) fun _ => (trades_push _).thenPure _
  | swap =>
    cases fixed
    refine Trades.afterPop fun y => Trades.afterPop fun x => ?_
    exact (trades_push _).bind fun _ => (trades_push _).thenPure _
  | element =>
    cases fixed
    refine Trades.afterPop fun word => Trades.after (keeps_answer _) fun index => ?_
    refine Trades.afterPop fun container => ?_
    exact Trades.after (keeps_observe _) fun _ => (trades_push _).thenPure _
  | load name =>
    cases fixed
    exact Trades.after (keeps_observe _) fun _ => (trades_push _).thenPure _
  | loadPlace name =>
    cases fixed
    exact Trades.after (keeps_observe _) fun _ => (trades_push _).thenPure _
  | jumpIfZero address =>
    cases fixed
    exact (trades_branch _ _ _).thenPure _
  | jumpUnlessZero address =>
    cases fixed
    exact (trades_branch _ _ _).thenPure _
  | enter arguments locals =>
    cases fixed
    exact Trades.afterCount ((trades_enter _).thenPure _)
  | enterClosure arguments locals =>
    cases fixed
    exact Trades.afterCount ((trades_enter _).thenPure _)
  | closure address captured =>
    cases fixed
    exact Trades.after (keeps_answer _) fun _ => Trades.after (keeps_observe _) fun _ =>
      Trades.after (keeps_stack_onHost _) fun _ => (trades_push _).thenPure _
  | callClosure arguments =>
    cases fixed
    exact Trades.afterCount ((trades_callClosure _ _).thenPure _)
  | call address arguments =>
    cases fixed
    exact Trades.afterCount (Trades.after (keeps_answer _) fun _ => (trades_call _ _ _).thenPure _)
  | matchAggregate name arity =>
    cases fixed
    refine Trades.after (keeps_answer _) fun _ => Trades.after (keeps_observe _) fun _ => ?_
    refine Trades.afterPop fun word => Trades.after (keeps_answer _) fun _ => ?_
    exact Trades.after keeps_get fun _ => (trades_push _).thenPure _
  | matchArray length =>
    cases fixed
    refine Trades.afterPop fun word => Trades.after (keeps_answer _) fun _ => ?_
    exact Trades.after keeps_get fun _ => (trades_push _).thenPure _
  | failure line column =>
    cases fixed
    exact trades_throw _
  | line number =>
    cases fixed
    exact Trades.after (keeps_modify fun _ => rfl) fun _ => trades_pure _
  | test pattern =>
    by_cases same : pattern = .sameString
    · subst same
      cases fixed
      exact trades_sameString.thenPure _
    · have single : (1, 1) = (taken, given) := by
        cases pattern <;> first | exact absurd rfl same | exact Option.some.inj fixed
      cases single
      exact (trades_test same).thenPure _
  | readNumber =>
    cases fixed
    exact Trades.after (keeps_stack_onHost _) fun _ => (trades_push _).thenPure _
  | writeNumber =>
    cases fixed
    refine Trades.afterPop fun word => Trades.after (keeps_answer _) fun _ => ?_
    exact Trades.after (keeps_stack_onHost _) fun _ => (trades_push _).thenPure _
  | length =>
    cases fixed
    refine Trades.afterPop fun word => ?_
    exact Trades.after (keeps_observe _) fun _ => (trades_push _).thenPure _
  | print =>
    cases fixed
    refine Trades.afterPop fun word => ?_
    exact Trades.after (keeps_stack_onHost _) fun _ => (trades_push _).thenPure _
  | array length =>
    cases fixed
    exact Trades.afterCount ((trades_gather _ _).thenPure _)
  | stop =>
    cases fixed
    exact trades_pure _
  | store name => cases fixed
  | storeThrough => cases fixed
  | storeElement => cases fixed
  | leave => cases fixed

end Machine

end BytecodeMachine
