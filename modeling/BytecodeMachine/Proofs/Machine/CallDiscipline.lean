import BytecodeMachine.Host.Workspace
import BytecodeMachine.Instruction.Encode
import BytecodeMachine.Proofs.Machine.Accounts
/-!
# Calls return

Over every history that opens frames where it should and keeps the linkage of its
activations, the saved frame pointers lead from the frame pointer through the open
activations down to the bottom of the stack, and leaving goes back to where the call was.

There are four kinds of turns. A call is prepared in the caller's frame, an entry opens the
frame, leaving closes it, and everything else goes on in the running function without
reaching behind its linkage, unless it is a store.
-/
namespace BytecodeMachine.Machine

open BytecodeMachine.Action

variable {σ : Type} [Host σ] {image : Image} {capacity : Nat} {m n : Machine σ}
  {past : List (Turn σ)} {last : Turn σ} {outer : List (Activation σ)}

/-- An instruction that neither stores nor changes which function runs takes two words at most
or leaves one at most. -/
theorem exists_trade_of_ordinary {instruction : Instruction}
    (ordinary : instruction.isTransfer = false) (quiet : instruction.isStore = false) :
    ∃ taken given, instruction.trade? = some (taken, given) ∧ (taken ≤ 2 ∨ given ≤ 1) := by
  cases instruction with
  | store name => cases quiet
  | storeThrough => cases quiet
  | storeElement => cases quiet
  | leave => cases ordinary
  | call address arguments => cases ordinary
  | callClosure arguments => cases ordinary
  | enter arguments locals => cases ordinary
  | enterClosure arguments locals => cases ordinary
  | test pattern => cases pattern <;> exact ⟨_, _, rfl, .inr (Nat.le_refl _)⟩
  | swap => exact ⟨_, _, rfl, .inl (Nat.le_refl _)⟩
  | drop => exact ⟨_, _, rfl, .inl (by omega)⟩
  | jumpIfZero address => exact ⟨_, _, rfl, .inl (by omega)⟩
  | jumpUnlessZero address => exact ⟨_, _, rfl, .inl (by omega)⟩
  | jump address => exact ⟨_, _, rfl, .inl (by omega)⟩
  | line number => exact ⟨_, _, rfl, .inl (by omega)⟩
  | stop => exact ⟨_, _, rfl, .inl (by omega)⟩
  | ret => exact ⟨_, _, rfl, .inl (by omega)⟩
  | failure line column => exact ⟨_, _, rfl, .inl (by omega)⟩
  | _ => exact ⟨_, _, rfl, .inr (Nat.le_refl _)⟩

/-- While the linkage at a frame is live before and after it, an ordinary turn does not reach
behind it. -/
theorem Turn.Executed.keeps_behind_linkage {frame index : Nat} (done : last.Executed image)
    (ordinary : last.instruction.isTransfer = false) (quiet : last.instruction.isStore = false)
    (live : last.before.stack.top ≤ frame) (stillLive : last.after.stack.top ≤ frame)
    (deep : frame + 3 ≤ index) :
    last.after.stack.words[index]? = last.before.stack.words[index]? := by
  obtain ⟨taken, given, fixed, small⟩ := exists_trade_of_ordinary ordinary quiet
  have trade := execute_trades image last.instruction fixed _ _ _ done
  have top := trade.top
  dsimp only at top
  apply trade.below
  dsimp only
  omega

/-- The storage of the stack is out of reach of every instruction. -/
theorem Turn.Executed.size (done : last.Executed image) :
    last.after.stack.words.size = last.before.stack.words.size :=
  (execute_keeps (capacity_outOfReach last.instruction) image).of_ok
    (s := { last.before with next := last.behind }) done

/-- An instruction that is no transfer leaves the frame pointer and the depth. -/
theorem Turn.Executed.running (done : last.Executed image)
    (ordinary : last.instruction.isTransfer = false) :
    last.after.frame = last.before.frame ∧ last.after.depth = last.before.depth :=
  Prod.mk.inj ((execute_keeps (running_outOfReach ordinary) image).of_ok
    (s := { last.before with next := last.behind }) done)

omit [Host σ] in
/-- With the linkage that a call has left, what leaving does belongs to this call: the frame lies
three words above the arguments, and the numbers in the linkage are the call's own. -/
theorem Returned.of_left {call : Turn σ} {between : List (Turn σ)} {result : Value}
    (left : Left (Int32.ofNat call.before.frame) (Int32.ofNat call.instruction.dropped)
      (Int32.ofNat call.behind) result { last.before with next := last.behind } last.after)
    (callerFits : call.before.frame < 2147483648)
    (droppedFits : call.instruction.dropped < 2147483648) (nextFits : call.behind < 2147483648)
    (place : last.before.frame + 3 = call.before.stack.top)
    (enough : call.before.stack.top + call.instruction.dropped ≤ call.before.stack.words.size)
    (size : last.after.stack.words.size = call.before.stack.words.size)
    (depth : last.after.depth = call.before.depth)
    (next : last.after.next = (Int32.ofNat call.behind).toInt.toNat)
    (undisturbed : ∀ index, call.before.stack.top + call.instruction.dropped ≤ index →
      Undisturbed call.before between last.before index) :
    Returned call between last := by
  have top : last.after.stack.top + 1 = call.before.stack.top + call.instruction.dropped := by
    have top := left.top
    dsimp only at top
    rw [toNat_ofNat droppedFits] at top
    omega
  refine ⟨?_, depth, ?_, ?_, ?_, top, ⟨result, ?_, ?_⟩, ?_⟩
  · exact left.frame.trans (toNat_ofNat callerFits)
  · exact next.trans (toNat_ofNat nextFits)
  · unfold Stack.size Stack.bottom
    omega
  · unfold Stack.size Stack.bottom
    omega
  · exact Stack.peek_eq_ok_iff.mpr (Stack.get_eq_ok_iff.mp left.last).2
  · exact Stack.peek_eq_ok_iff.mpr (Stack.get_eq_ok_iff.mp left.answered).2
  · intro index deep
    have same := left.below index (by omega)
    exact ⟨same, (undisturbed index deep).same same⟩

/-- Leaving an activation goes back to its call. The linkage names what was before the call, and
the top of the stack goes behind the arguments. -/
theorem Turn.Executed.returned {activation : Activation σ} (done : last.Executed image)
    (leaves : last.instruction = .leave) (bounded : capacity ≤ greatestCapacity)
    (size : last.before.stack.words.size = capacity) (rested : Resting capacity past last.before)
    (running : activations past = activation :: outer)
    (opened : Opened capacity last.before.stack activation outer)
    (kept : Accounted capacity last.after.stack outer) :
    ∃ call older between, activation.earlier = call :: older ∧ outer = activations older ∧
      past = between ++ call :: older ∧ call.instruction.isCall = true ∧
      Resting capacity older call.before ∧ Returned call between last := by
  have size' : last.after.stack.words.size = capacity := done.size.trans size
  unfold Turn.Executed at done
  rw [leaves] at done
  obtain ⟨pointer, count, address, result, left, ⟨_, ⟨⟩, _⟩ | ⟨somewhere, _, gone, next⟩⟩ :=
    leave_left done
  have here : last.before.frame = activation.frame := by
    rw [rested.frame, running]
    rfl
  have link := left.link
  have argumentCount := left.argumentCount
  have returnAddress := left.returnAddress
  dsimp only at link argumentCount returnAddress
  rw [here] at link argumentCount returnAddress
  cases opened with
  | bottom place linked =>
    rw [linked.returnAddress] at returnAddress
    cases returnAddress
    exact absurd rfl somewhere
  | @called frame call older calls before place inner enough callSize droppedFits nextFits linked =>
    rw [linked.link] at link
    rw [linked.argumentCount] at argumentCount
    rw [linked.returnAddress] at returnAddress
    cases link
    cases argumentCount
    cases returnAddress
    have callerFits : call.before.frame < 2147483648 := by
      rw [before.frame]
      exact kept.resume_lt bounded
    obtain ⟨between, split, undisturbed⟩ := rested.settled _ (by rw [running]; rfl) call older rfl
    have depth : last.after.depth = call.before.depth := by
      have inside := rested.depth
      have outside := before.depth
      rw [running, List.length_cons] at inside
      dsimp only at gone
      omega
    refine ⟨call, older, between, rfl, rfl, split, calls, before, ?_⟩
    refine .of_left left callerFits droppedFits nextFits ?_ ?_ (size'.trans callSize.symm) depth
      next undisturbed
    · rw [here]
      exact place
    · rw [callSize]
      exact enough

omit [Host σ] in
/-- Back in the caller, the words below the arguments of its own call are still settled: they
lie deeper than the arguments of the call that has been returned from. -/
theorem Returned.resting {call : Turn σ} {older between : List (Turn σ)}
    (returned : Returned call between last) (before : Resting capacity older call.before)
    (kept : Accounted capacity last.after.stack (activations older))
    (same : activations (last :: between ++ call :: older) = activations older) :
    Resting capacity (last :: between ++ call :: older) last.after := by
  refine ⟨?_, ?_, ?_⟩
  · rw [same, returned.frame]
    exact before.frame
  · rw [same, returned.depth]
    exact before.depth
  · intro activation head call' older' begun
    rw [same] at head
    obtain ⟨between', rfl, undisturbed⟩ := before.settled activation head call' older' begun
    refine ⟨last :: between ++ call :: between', by simp, ?_⟩
    intro index deep
    obtain ⟨outer, opened⟩ := List.head?_eq_some_iff.mp head
    rw [opened] at kept
    have live := kept.1.top_le
    have place := kept.1.place begun
    have top := returned.top
    obtain ⟨_, since⟩ := returned.below index (by omega)
    refine ((undisturbed index deep).append since).mono ?_
    intro turn member
    simp only [List.mem_append, List.cons_append, List.mem_cons] at member ⊢
    rcases member with member | member
    · exact .inr (.inl member)
    · exact .inr (.inr (.inr member))

section Step

variable (disciplined : Disciplined capacity past last.before) (done : last.Executed image)
include disciplined done

/-- What an entry opens: the bottom activation at the start, and that of the call otherwise. In the
second case the call has left the stack as its own linkage says, and the entry adds the frame
pointer of the caller. -/
theorem Disciplined.opened (opens : last.instruction.isEntry = true)
    (expected : expectsEntry past = true) :
    Opened capacity last.after.stack ⟨last.after.frame, past⟩ (activations past) ∧
      last.after.depth = (activations past).length := by
  obtain ⟨locals, entered⟩ := execute_entered opens done
  cases past with
  | nil =>
    obtain ⟨top, frame, depth, argumentCount, returnAddress⟩ := disciplined.new rfl
    refine ⟨?_, entered.depth.trans depth⟩
    exact .of_start top frame argumentCount returnAddress entered
  | cons call older =>
    obtain ⟨rested, size, called⟩ := disciplined.called call older rfl expected
    have accounted := disciplined.accounted
    rw [activations_of_call expected] at accounted ⊢
    refine ⟨?_, ?_⟩
    · exact .of_call expected rested accounted size called entered
    · rw [← rested.depth]
      exact entered.depth.trans called.depth

/-- A turn that opens a frame where one is expected. The new activation rests in its frame, and
what lies below its arguments has been touched by the call and by the entry only, neither of which
reaches that far. -/
theorem Disciplined.entry (opens : last.instruction.isEntry = true)
    (expected : expectsEntry past = true)
    (kept : Accounted capacity last.after.stack (activations past)) :
    Disciplined capacity (last :: past) last.after := by
  obtain ⟨opened, depth⟩ := disciplined.opened done opens expected
  have notCall := Instruction.isCall_of_isEntry opens
  have same : activations (last :: past) = ⟨last.after.frame, past⟩ :: activations past :=
    activations_of_entry opens
  refine ⟨done.size.trans disciplined.size, ?_, by simp, ?_, fun _ => ⟨?_, ?_, ?_⟩⟩
  · rw [same]
    exact ⟨opened, kept⟩
  · rintro _ _ ⟨⟩ calls
    rw [notCall] at calls
    cases calls
  · rw [same]
    rfl
  · rw [same, List.length_cons, depth]
  · intro activation head call older begun
    rw [same] at head
    cases head
    subst begun
    obtain ⟨rested, size, called⟩ := disciplined.called call older rfl expected
    obtain ⟨locals, entered⟩ := execute_entered opens done
    refine ⟨[last], rfl, ?_⟩
    intro index deep
    have below := called.trade.top
    dsimp only at below
    refine Undisturbed.turn (.inl ?_) fun _ => ?_
    · exact called.trade.below index deep
    · exact entered.trade.below index (by dsimp only; omega)

/-- A turn that leaves. The running activation is that of a call, as the bottom one is left by
halting only; its linkage says where the caller was, so the caller rests in its frame again, and
the turn has returned to the call. -/
theorem Disciplined.leave (leaves : last.instruction = .leave)
    (bounded : capacity ≤ greatestCapacity) (rested : Resting capacity past last.before)
    (kept : Accounted capacity last.after.stack (activations past).tail) :
    Disciplined capacity (last :: past) last.after ∧
      ∃ activation call older between, (activations past).head? = some activation ∧
        activation.earlier = call :: older ∧ past = between ++ call :: older ∧
        call.instruction.isCall = true ∧ Returned call between last := by
  have accounted := disciplined.accounted
  have same : activations (last :: past) = (activations past).tail := activations_of_leave leaves
  cases running : activations past with
  | nil =>
    have depth := rested.depth
    rw [running] at depth
    cases depth
  | cons activation outer =>
    rw [running] at accounted kept same
    obtain ⟨call, older, between, begun, rfl, rfl, calls, before, returned⟩ :=
      done.returned leaves bounded disciplined.size rested running accounted.1 kept
    refine ⟨⟨done.size.trans disciplined.size, ?_, by simp, ?_, fun _ => ?_⟩, ?_⟩
    · rw [same]
      exact kept
    · rintro _ _ ⟨⟩ calls
      rw [leaves] at calls
      cases calls
    · exact returned.resting before kept same
    · exact ⟨activation, call, older, between, rfl, begun, rfl, calls, returned⟩

/-- Any other turn of a running function. The activations are the same, the frame pointer and the
depth change with a call only, and the words below the arguments are changed by nothing but
stores. -/
theorem Disciplined.stay (stays : last.instruction ≠ .leave)
    (opens : last.instruction.isEntry = false) (rested : Resting capacity past last.before)
    (kept : Accounted capacity last.after.stack (activations past)) :
    Disciplined capacity (last :: past) last.after := by
  have same : activations (last :: past) = activations past := by
    rw [activations_of_not_entry opens, outlasting_of_ne stays]
  refine ⟨done.size.trans disciplined.size, by rwa [same], by simp, ?_, ?_⟩
  · rintro _ _ ⟨⟩ calls
    exact ⟨rested, disciplined.size, execute_called calls done⟩
  · intro calls
    have ordinary := Instruction.isTransfer_eq_false stays calls opens
    obtain ⟨frame, depth⟩ := done.running ordinary
    refine ⟨?_, ?_, ?_⟩
    · rw [same, frame]
      exact rested.frame
    · rw [same, depth]
      exact rested.depth
    · intro activation head call older begun
      rw [same] at head
      obtain ⟨between, rfl, undisturbed⟩ := rested.settled activation head call older begun
      refine ⟨last :: between, rfl, ?_⟩
      intro index deep
      refine (undisturbed index deep).turn fun quiet => ?_
      have accounted := disciplined.accounted
      obtain ⟨outer, opened⟩ := List.head?_eq_some_iff.mp head
      rw [opened] at accounted kept
      have place := accounted.1.place begun
      exact done.keeps_behind_linkage ordinary quiet accounted.1.top_le kept.1.top_le (by omega)

end Step

/-- One more turn that opens frames where it should and keeps the linkage. Proof: by what the turn
does with activations. Where an entry is expected it is an entry, and where none is the function
runs, so that the turn leaves it or stays in it. -/
theorem Disciplined.turn (disciplined : Disciplined capacity past last.before)
    (done : last.Executed image) (bounded : capacity ≤ greatestCapacity)
    (entries : EntriesFollowCalls (last :: past)) (linkage : LinkageKept (last :: past)) :
    Disciplined capacity (last :: past) last.after ∧
      (last.instruction = .leave → ∃ activation call older between,
        (activations past).head? = some activation ∧ activation.earlier = call :: older ∧
        past = between ++ call :: older ∧ call.instruction.isCall = true ∧
        Returned call between last) := by
  have kept := disciplined.accounted.of_outlasting.kept linkage.1
  cases opens : last.instruction.isEntry with
  | true =>
    have expected : expectsEntry past = true := entries.1.symm.trans opens
    have stays : last.instruction ≠ .leave := by
      intro leaves
      rw [leaves] at opens
      cases opens
    rw [outlasting_of_ne stays] at kept
    exact ⟨disciplined.entry done opens expected kept, fun leaves => absurd leaves stays⟩
  | false =>
    have rested := disciplined.resting (entries.1.symm.trans opens)
    by_cases leaves : last.instruction = .leave
    · rw [outlasting, if_pos leaves] at kept
      obtain ⟨next, back⟩ := disciplined.leave done leaves bounded rested kept
      exact ⟨next, fun _ => back⟩
    · rw [outlasting_of_ne leaves] at kept
      exact ⟨disciplined.stay done leaves opens rested kept, fun back => absurd back leaves⟩

/-- Every machine that such a history leads to is disciplined. Proof: induction on the history.
It holds of a fresh machine, and a turn keeps it under what is assumed of entries and of the
linkage. -/
theorem History.disciplined {host : σ} (history : History image capacity host past m)
    (entries : EntriesFollowCalls past) (linkage : LinkageKept past) :
    Disciplined capacity past m := by
  induction history with
  | start made =>
    obtain ⟨_, _, _, _, fresh⟩ := start_fresh made
    exact disciplined_of_fresh fresh
  | turn earlier fetched advanced before =>
    exact ((before entries.2 linkage.2).turn (executed_of_advance fetched advanced)
      earlier.bounded entries linkage).1

omit [Host σ] in
/-- The saved frame pointers of accounted activations lead through their frames. Proof: induction
on the activations; each saves the frame of the one it was opened on, which fits in a number. -/
theorem Accounted.follows {stack : Stack} {found : List (Activation σ)}
    (accounted : Accounted capacity stack found) (bounded : capacity ≤ greatestCapacity) :
    Follows stack (capacity - 4) (resume capacity found) (found.map Activation.frame) := by
  induction found with
  | nil => exact .done
  | cons activation outer later =>
    obtain ⟨opened, rest⟩ := accounted
    have fits := rest.resume_lt bounded
    have link := opened.link
    refine .link link (ofNat_nonneg fits) ?_
    rw [toNat_ofNat fits]
    exact later rest

omit [Host σ] in
/-- Frames of outer activations lie deeper, and the last one lies above the bottom. Proof:
induction on the activations. Each one is opened above the frame that was running, which is the
next one in the list. -/
theorem Accounted.increasing {stack : Stack} {found : List (Activation σ)}
    (accounted : Accounted capacity stack found) :
    (found.map Activation.frame ++ [capacity - 4]).Pairwise (· < ·) ∧
      ∀ frame ∈ found.map Activation.frame ++ [capacity - 4], resume capacity found ≤ frame := by
  induction found with
  | nil =>
    refine ⟨List.pairwise_singleton _ _, ?_⟩
    intro frame member
    exact Nat.le_of_eq (List.mem_singleton.mp member).symm
  | cons activation outer later =>
    obtain ⟨opened, rest⟩ := accounted
    obtain ⟨ordered, deeper⟩ := later rest
    have inner := opened.inner
    constructor
    · refine List.pairwise_cons.mpr ⟨?_, ordered⟩
      intro frame member
      exact Nat.lt_of_lt_of_le inner (deeper frame member)
    · intro frame member
      rcases List.mem_cons.mp member with rfl | member
      · exact Nat.le_refl _
      · exact Nat.le_trans (Nat.le_of_lt inner) (deeper frame member)

/-- Only the bottom activation returns nowhere, so leaving ends a run in no other. The address that
ends a run is negative, and a call has put an offset there, which is not. -/
theorem Opened.halted {activation : Activation σ} {behind : Nat}
    (bounded : capacity ≤ greatestCapacity) (opened : Opened capacity m.stack activation outer)
    (here : m.frame = activation.frame)
    (done : execute image .leave { m with next := behind } = .ok .halt n) :
    outer = [] ∧ n.frame = capacity - 4 ∧ n.depth = m.depth := by
  obtain ⟨pointer, count, address, result, left, ⟨rfl, _, depth⟩ | ⟨_, ⟨⟩, _⟩⟩ := leave_left done
  have link := left.link
  have returnAddress := left.returnAddress
  dsimp only at link returnAddress
  rw [here] at link returnAddress
  cases opened with
  | bottom place linked =>
    rw [linked.link] at link
    cases link
    have fits : capacity - 4 < 2147483648 := by
      unfold greatestCapacity at bounded
      omega
    exact ⟨rfl, left.frame.trans (toNat_ofNat fits), depth⟩
  | called calls rested place inner enough size droppedFits nextFits linked =>
    rw [linked.returnAddress] at returnAddress
    have negative : Int32.ofNat _ = nowhere := Value.scalar.inj (Except.ok.inj returnAddress)
    have positive := ofNat_nonneg nextFits
    rw [negative] at positive
    exact absurd positive (by decide)

/-- A run that ends in a running function is stopped in its frame, or has left the bottom
activation and with it every frame. -/
theorem Disciplined.halted (disciplined : Disciplined capacity past m)
    (bounded : capacity ≤ greatestCapacity) (rested : Resting capacity past m)
    (advanced : advance image m = .ok .halt n) :
    (n.stack = m.stack ∧ n.frame = m.frame ∧ n.depth = m.depth) ∨
      ((activations past).length = 1 ∧ n.frame = capacity - 4 ∧ n.depth = 0) := by
  obtain ⟨instruction, behind, _, _, done⟩ := advance_eq_ok_iff.mp advanced
  by_cases leaves : instruction = .leave
  · subst leaves
    right
    have depth := rested.depth
    have accounted := disciplined.accounted
    cases running : activations past with
    | nil =>
      rw [running] at depth
      cases depth
    | cons activation outer =>
      rw [running] at accounted depth
      have here : m.frame = activation.frame := by
        rw [rested.frame, running]
        rfl
      obtain ⟨rfl, frame, same⟩ := accounted.1.halted bounded here done
      refine ⟨rfl, frame, ?_⟩
      simp only [List.length_cons, List.length_nil] at depth
      omega
  · left
    by_cases stops : instruction = .stop
    · subst stops
      cases done
      exact ⟨rfl, rfl, rfl⟩
    · cases execute_answers_next leaves stops _ _ _ done

/-- Over every history that opens frames at the start and behind calls only, and keeps the linkage
of activations that it does not close: in a running function the saved frame pointers lead
from the frame pointer through the open activations, one more than the depth, to deeper and
deeper indices and to the bottom frame; leaving that goes on returns to the call of what it
leaves; and a run ends where it stands, or by leaving the bottom activation. -/
theorem calls_return {host : σ} (history : History image capacity host past m)
    (entries : EntriesFollowCalls past) (linkage : LinkageKept past) :
    (expectsEntry past = false →
      Follows m.stack (capacity - 4) m.frame (frames past) ∧
        (frames past).length = m.depth + 1 ∧
        (frames past ++ [capacity - 4]).Pairwise (· < ·)) ∧
      (∀ last earlier, past = last :: earlier → last.instruction = .leave →
        ∃ activation call older between, (activations earlier).head? = some activation ∧
          activation.earlier = call :: older ∧ earlier = between ++ call :: older ∧
          call.instruction.isCall = true ∧ Returned call between last) ∧
      ∀ n, expectsEntry past = false → advance image m = .ok .halt n →
        (n.stack = m.stack ∧ n.frame = m.frame ∧ n.depth = m.depth) ∨
          ((frames past).length = 1 ∧ n.frame = capacity - 4 ∧ n.depth = 0) := by
  have bounded := history.bounded
  have disciplined := history.disciplined entries linkage
  refine ⟨?_, ?_, ?_⟩
  · intro expected
    have rested := disciplined.resting expected
    refine ⟨?_, ?_, disciplined.accounted.increasing.1⟩
    · rw [rested.frame]
      exact disciplined.accounted.follows bounded
    · rw [rested.depth]
      exact List.length_map ..
  · rintro last earlier rfl leaves
    cases history with
    | turn before fetched advanced =>
      have started := before.disciplined entries.2 linkage.2
      exact (started.turn (executed_of_advance fetched advanced) bounded entries linkage).2 leaves
  · intro n expected advanced
    rw [frames, List.length_map]
    exact disciplined.halted bounded (disciplined.resting expected) advanced

/-- A function that calls another one with an argument. -/
def nestedCall : Image where
  strings := #[]
  publics := []
  code := (([.enter 2 0, .constant 7, .call 24 1, .leave, .enter 1 0, .constant 5, .leave] :
    List Instruction).flatMap Instruction.encode).toArray
  globals := 0

/-- The second function has returned to the first one, which runs on. Its frames have been opened
where they should and its linkage was kept, which is checked on the record of the run. -/
theorem calls_return_nestedCall :
    ∃ past n, History nestedCall 16 ({} : Workspace) past n ∧ EntriesFollowCalls past ∧
      LinkageKept past ∧ Follows n.stack 12 n.frame [11] ∧
      ∃ last call older between, last.instruction = .leave ∧ call.instruction.isCall = true ∧
        past = last :: between ++ call :: older ∧ Returned call between last := by
  obtain ⟨m, made, entries, linkage, done, inside, opened⟩ :
      ∃ m, (Machine.start nestedCall 16 .boundless ({} : Workspace)).2 = .ok m ∧
        EntriesFollowCalls (record nestedCall 6 [] m).1 ∧
        LinkageKept (record nestedCall 6 [] m).1 ∧
        (record nestedCall 6 [] m).1.map (·.instruction) =
          [.leave, .constant 5, .enter 1 0, .call 24 1, .constant 7, .enter 2 0] ∧
        expectsEntry (record nestedCall 6 [] m).1 = false ∧
        frames (record nestedCall 6 [] m).1 = [11] :=
    ⟨_, rfl, by decide +kernel, by decide +kernel, by decide +kernel, by decide +kernel,
      by decide +kernel⟩
  have history := (History.start made).record 6
  obtain ⟨runs, returns, _⟩ := calls_return history entries linkage
  obtain ⟨last, earlier, past, leaves, _⟩ := List.map_eq_cons_iff.mp done
  obtain ⟨_, call, older, between, _, _, rfl, calls, returned⟩ := returns last earlier past leaves
  rw [opened] at runs
  exact ⟨_, _, history, entries, linkage, (runs inside).1, last, call, older, between, leaves,
    calls, past, returned⟩

end BytecodeMachine.Machine
