import BytecodeMachine.Proofs.Listing
/-!
# Patching addresses

In all instructions that have an address it stands right behind the opcode, whatever other operands
there are, and takes four bytes. So writing another address over these bytes gives the binary form
of the same instruction with another address, and of the same length: all that stands before and
behind it stays where it is.

Those who write code know their draft and the offsets at which they have emitted. What they have
written so far is told by a list of instructions. Emitting adds one to the end of it, and a patch
gives another address to one that is in it.
-/
namespace BytecodeMachine

namespace Instruction

/-- The address that an instruction goes to, calls or keeps. -/
def target? : Instruction → Option Int32
  | .jump target | .jumpIfZero target | .jumpUnlessZero target | .closure target _
  | .call target _ => some target
  | _ => none

/-- The same instruction with another address, if it has one. -/
def withTarget (target : Int32) : Instruction → Instruction
  | .jump _ => .jump target
  | .jumpIfZero _ => .jumpIfZero target
  | .jumpUnlessZero _ => .jumpUnlessZero target
  | .closure _ captured => .closure target captured
  | .call _ arguments => .call target arguments
  | other => other

variable {instruction : Instruction} {target other : Int32}

/-- Another target does not make it another instruction. -/
@[simp]
theorem opcode_withTarget : (instruction.withTarget target).opcode = instruction.opcode := by
  cases instruction <;> rfl

/-- Of two targets given one after the other the last one counts. -/
@[simp]
theorem withTarget_withTarget :
    (instruction.withTarget target).withTarget other = instruction.withTarget other := by
  cases instruction <;> rfl

/-- An instruction without a target cannot be given one. -/
theorem withTarget_of_target?_eq_none (none : instruction.target? = .none) :
    instruction.withTarget target = instruction := by
  cases instruction <;> first | rfl | cases none

/-- The opcode tells whether an instruction has an address. -/
theorem hasTarget_opcode : CodeDraft.hasTarget instruction.opcode = instruction.target?.isSome := by
  cases instruction with
  | binary operator => cases operator <;> rfl
  | load source | loadPlace source | store source =>
    obtain ⟨storage, index⟩ := source
    cases storage <;> rfl
  | test pattern => cases pattern <;> rfl
  | _ => rfl

/-- The address is the first operand. The others do not depend on it, so another target changes
four bytes and leaves the rest of the encoding. -/
theorem operands_of_target? (there : instruction.target? = some target) :
    ∃ others, instruction.operands = LittleEndian.encode target ++ others ∧
      ∀ address, (instruction.withTarget address).operands =
        LittleEndian.encode address ++ others := by
  cases instruction with
  | jump | jumpIfZero | jumpUnlessZero =>
    cases there
    exact ⟨[], (List.append_nil _).symm, fun address => (List.append_nil _).symm⟩
  | call _ arguments =>
    cases there
    exact ⟨LittleEndian.encode arguments, rfl, fun address => rfl⟩
  | closure _ captured =>
    cases there
    exact ⟨_, List.append_assoc .., fun address => List.append_assoc ..⟩
  | _ => cases there

/-- Another address takes as many bytes. The opcode is one byte in both, the address is four, and
the other operands are the same. -/
@[simp]
theorem length_encode_withTarget :
    (instruction.withTarget target).encode.length = instruction.encode.length := by
  rw [encode, encode, List.length_cons, List.length_cons]
  cases there : instruction.target? with
  | none => rw [withTarget_of_target?_eq_none there]
  | some address =>
    obtain ⟨others, before, after⟩ := operands_of_target? there
    rw [before, after]
    rfl

end Instruction

namespace CodeDraft

variable {draft : CodeDraft} {instructions : List Instruction} {instruction : Instruction}
  {front old behind : List UInt8} {index target : Nat}

/-- Writing over as many bytes as are written changes these and nothing else. Proof: induction on
the new bytes, where each one written is added to what stands in front. -/
theorem toList_overwrite {code : Array UInt8} (new : List UInt8)
    (stands : code.toList = front ++ old ++ behind)
    (same : old.length = new.length) :
    (overwrite code front.length new).toList = front ++ new ++ behind := by
  induction new generalizing code front old with
  | nil =>
    rw [List.length_eq_zero_iff.mp same] at stands
    exact stands
  | cons b new later =>
    obtain ⟨first, old, rfl⟩ := List.exists_cons_of_length_eq_add_one same
    have written :
        (code.setIfInBounds front.length b).toList = (front ++ [b]) ++ old ++ behind := by
      rw [Array.toList_setIfInBounds, stands]
      simp
    have goesOn := later written (Nat.succ.inj same)
    rw [List.length_append, List.length_singleton] at goesOn
    rw [overwrite, goesOn]
    simp

/-- Where an instruction stands, its opcode is found. -/
theorem opcodeAt_of_stands (stands : draft.code.toList = front ++ instruction.encode ++ behind) :
    draft.opcodeAt front.length = .ok instruction.opcode := by
  have opcode : draft.code[front.length]? = some instruction.opcode := by
    rw [← Array.getElem?_toList, stands, Instruction.encode]
    simp
  rw [opcodeAt, opcode]

/-- Writing an address behind the opcode gives the binary form of the instruction with that address,
because the address is its first operand and all addresses take four bytes. These are there, so the
code does not end before them. -/
theorem overwrite_of_stands {address : Int32} (there : instruction.target? = some address)
    (stands : draft.code.toList = front ++ instruction.encode ++ behind) (other : Int32) :
    front.length + 5 ≤ draft.code.size ∧
      overwrite draft.code (front.length + 1) (LittleEndian.encode other) =
        (front ++ (instruction.withTarget other).encode ++ behind).toArray := by
  obtain ⟨others, before, after⟩ := Instruction.operands_of_target? there
  have whole : draft.code.toList = (front ++ [instruction.opcode]) ++
      LittleEndian.encode address ++ (others ++ behind) := by
    rw [stands, Instruction.encode, before]
    simp
  constructor
  · rw [← Array.length_toList, whole]
    simp
  · have written := toList_overwrite (LittleEndian.encode other) whole rfl
    rw [List.length_append, List.length_singleton] at written
    apply Array.toList_inj.mp
    rw [written, Instruction.encode, Instruction.opcode_withTarget, after]
    simp

/-- What a patch does where an instruction stands. It is refused for want of an address before the
new one is looked at, and then because the new one is too large; a refusal leaves the draft as it
is. -/
theorem patch_of_stands (stands : draft.code.toList = front ++ instruction.encode ++ behind) :
    patch front.length target draft =
      if instruction.target?.isSome then
        if target < 2147483648 then
          .ok () ⟨(front ++ (instruction.withTarget (Int32.ofNat target)).encode ++ behind).toArray⟩
        else .error (.number .tooLarge) draft
      else .error (.code (.noTarget instruction.opcode front.length)) draft := by
  have opcode := Action.observe_eq_ok_iff.mpr ⟨opcodeAt_of_stands stands, rfl⟩
  rw [patch, Action.bind_of_ok opcode, Instruction.hasTarget_opcode]
  cases there : instruction.target? with
  | none => rfl
  | some address =>
    by_cases fits : target < 2147483648
    · have number : int32OfNat target = .ok (Int32.ofNat target) := if_pos fits
      obtain ⟨whole, written⟩ := overwrite_of_stands there stands (Int32.ofNat target)
      rw [Option.isSome_some, if_pos rfl, if_pos rfl, if_pos fits, number, ← written]
      exact congrFun (if_pos whole) draft
    · have large : int32OfNat target = .error (.number .tooLarge) := if_neg fits
      rw [Option.isSome_some, if_pos rfl, if_pos rfl, if_neg fits, large]
      rfl

/-- A patch that is refused leaves the draft as it is, wherever the offset points: the last thing a
patch does is to write, and nothing can go wrong in that. -/
theorem patch_spares (offset target : Nat) : Action.Spares id (patch offset target) := by
  refine Action.Spares.bind (Action.keeps_observe _) fun opcode => ?_
  by_cases address : hasTarget opcode
  · rw [if_pos address]
    refine Action.Spares.bind (Action.keeps_answer _) fun number => ?_
    refine Action.Spares.bind Action.keeps_get fun draft => ?_
    by_cases whole : offset + 5 ≤ draft.code.size
    · rw [if_pos whole]
      exact Action.Unfailing.spares fun _ => trivial
    · rw [if_neg whole]
      exact (Action.keeps_throw _).spares
  · rw [if_neg address]
    exact (Action.keeps_throw _).spares

/-! ### Drafts that hold a list of instructions -/

/-- The offsets at which instructions are emitted depend on their lengths alone. Proof: induction
on the instructions, where both drafts are as long behind the first one as well. -/
theorem offsets_emitted_congr {others : List Instruction} {other : CodeDraft}
    (here : draft.here = other.here)
    (lengths : instructions.map (·.encode.length) = others.map (·.encode.length)) :
    (draft.emitted instructions).map (·.offset) = (other.emitted others).map (·.offset) := by
  induction instructions generalizing draft other others with
  | nil =>
    rw [List.map_nil, eq_comm, List.map_eq_nil_iff] at lengths
    rw [lengths]
    rfl
  | cons first rest later =>
    obtain ⟨first', rest', rfl, length, lengths⟩ := List.map_eq_cons_iff.mp lengths.symm
    have next : (draft.emit first).here = (other.emit first').here := by
      rw [here_emit, here_emit, here, length]
    rw [emitted, emitted, List.map_cons, List.map_cons, later next lengths.symm, here]

/-- An instruction emitted last stands at the place behind all others. -/
theorem offsets_emitted_concat :
    (draft.emitted (instructions ++ [instruction])).map (·.offset) =
      (draft.emitted instructions).map (·.offset) ++ [(instructions.foldl emit draft).here] := by
  induction instructions generalizing draft with
  | nil => rfl
  | cons first rest later =>
    rw [List.cons_append, emitted, List.map_cons, later]
    rfl

/-- There is an entry for each instruction. -/
theorem length_emitted : (draft.emitted instructions).length = instructions.length := by
  induction instructions generalizing draft with
  | nil => rfl
  | cons first rest later => rw [emitted, List.length_cons, List.length_cons, later]

/-- An offset that has been given for an instruction is the length of what stands before it. Proof:
induction on the instructions, from the first one on. -/
theorem split_of_offset {offset : Nat}
    (given : ((draft.emitted instructions).map (·.offset))[index]? = some offset) :
    ∃ before instruction after, instructions = before ++ instruction :: after ∧
      index = before.length ∧
      offset = draft.here + (before.flatMap Instruction.encode).length := by
  induction instructions generalizing draft index with
  | nil => cases given
  | cons first rest later =>
    cases index with
    | zero =>
      cases given
      exact ⟨[], first, rest, rfl, rfl, rfl⟩
    | succ index =>
      obtain ⟨before, instruction, after, rfl, rfl, rfl⟩ := later given
      refine ⟨first :: before, instruction, after, rfl, rfl, ?_⟩
      rw [here_emit, List.flatMap_cons, List.length_append, Nat.add_assoc]

/-- A draft is nothing but its code, so one with the code of these instructions is what emitting
them makes. -/
theorem eq_foldl_emit_of_code
    (code : draft.code.toList = instructions.flatMap Instruction.encode) :
    draft = instructions.foldl emit {} := by
  have same : draft.code = (instructions.foldl emit {}).code := by
    apply Array.toList_inj.mp
    rw [code, code_foldl_emit]
    rfl
  obtain ⟨bytes⟩ := draft
  cases same
  rfl

end CodeDraft

/-- What those who write code ask for: to emit an instruction, or to patch the one that has been
emitted with this index. -/
inductive Edit
  | emit (instruction : Instruction)
  | patch (index target : Nat)

/-- A draft and the offsets at which the instructions have been emitted. -/
structure Session where
  draft : CodeDraft := {}
  offsets : List Nat := []

/-- Those who write code go on with the draft that a patch has left, also when it is refused. Nobody
can ask for a patch of an instruction that has not been emitted, so that is no patch. -/
def Session.edit (session : Session) : Edit → Session
  | .emit instruction =>
    ⟨session.draft.emit instruction, session.offsets ++ [session.draft.here]⟩
  | .patch index target =>
    match session.offsets[index]? with
    | none => session
    | some offset =>
      match CodeDraft.patch offset target session.draft with
      | .ok () draft => { session with draft := draft }
      | .error _ draft => { session with draft := draft }

/-- What an edit does to the list of instructions. -/
def Edit.revise (instructions : List Instruction) : Edit → List Instruction
  | .emit instruction => instructions ++ [instruction]
  | .patch index target =>
    if target < 2147483648 then
      instructions.modify index (·.withTarget (Int32.ofNat target))
    else instructions

namespace Session

variable {session other : Session} {instructions : List Instruction} {index offset target : Nat}

/-- The draft holds these instructions, each at the offset that was given for it. -/
structure Holds (session : Session) (instructions : List Instruction) : Prop where
  draft : session.draft = instructions.foldl CodeDraft.emit {}
  offsets : session.offsets = (CodeDraft.emitted {} instructions).map (·.offset)

/-- A new draft holds no instruction and has given no offset. -/
theorem holds_nil : Holds {} [] := ⟨rfl, rfl⟩

/-- Nothing else is kept. -/
theorem Holds.eq (holds : session.Holds instructions) (holds' : other.Holds instructions) :
    session = other := by
  obtain ⟨draft, offsets⟩ := session
  obtain ⟨draft', offsets'⟩ := other
  obtain ⟨rfl, rfl⟩ := holds
  obtain ⟨rfl, rfl⟩ := holds'
  rfl

/-- What a patch does at an offset that has been given. The offset splits the code at an
instruction, so the patch finds its opcode there; and the code with the new address is what
emitting the revised instructions makes. -/
theorem Holds.patch_eq (holds : session.Holds instructions) (target : Nat)
    (given : session.offsets[index]? = some offset) :
    ∃ instruction, instructions[index]? = some instruction ∧
      CodeDraft.patch offset target session.draft =
        if instruction.target?.isSome then
          if target < 2147483648 then
            .ok () ((instructions.modify index
              (·.withTarget (Int32.ofNat target))).foldl CodeDraft.emit {})
          else .error (.number .tooLarge) session.draft
        else .error (.code (.noTarget instruction.opcode offset)) session.draft := by
  rw [holds.offsets] at given
  obtain ⟨before, instruction, after, rfl, rfl, rfl⟩ := CodeDraft.split_of_offset given
  refine ⟨instruction, by simp, ?_⟩
  have stands : session.draft.code.toList = before.flatMap Instruction.encode ++
      instruction.encode ++ after.flatMap Instruction.encode := by
    rw [holds.draft, CodeDraft.code_foldl_emit]
    simp
  have start : (CodeDraft.here {}) = 0 := rfl
  rw [start, Nat.zero_add, CodeDraft.patch_of_stands stands]
  congr 2
  apply congrArg
  apply CodeDraft.eq_foldl_emit_of_code
  simp [List.modify_eq_set_getElem?]

/-- A patch succeeds exactly if there is an address and the new one fits. What the patch does is
known in all four cases, and only one of them is an answer. -/
theorem Holds.patch_eq_ok_iff (holds : session.Holds instructions) {draft : CodeDraft}
    {instruction : Instruction} (given : session.offsets[index]? = some offset)
    (there : instructions[index]? = some instruction) :
    CodeDraft.patch offset target session.draft = .ok () draft ↔
      (instruction.target?.isSome ∧ target < 2147483648) ∧
        (instructions.modify index (·.withTarget (Int32.ofNat target))).foldl CodeDraft.emit {} =
          draft := by
  obtain ⟨_, there', patched⟩ := holds.patch_eq target given
  cases there.symm.trans there'
  rw [patched]
  by_cases address : instruction.target?.isSome <;> by_cases fits : target < 2147483648 <;>
    simp [address, fits]

/-- No address is cut off by the end of the code, because the instruction stands there with all of
its operands. The two ways to be refused that are left are other faults. -/
theorem Holds.patch_ne_cutOff (holds : session.Holds instructions)
    (given : session.offsets[index]? = some offset) {left : CodeDraft} :
    CodeDraft.patch offset target session.draft ≠
      .error (.code (.targetCutOff offset)) left := by
  obtain ⟨instruction, _, patched⟩ := holds.patch_eq target given
  rw [patched]
  split
  · split <;> simp
  · simp

/-- Emitting puts the instruction behind the others, and the offset that is given is the place
where it starts. -/
theorem Holds.emit (holds : session.Holds instructions) (instruction : Instruction) :
    (session.edit (.emit instruction)).Holds (instructions ++ [instruction]) := by
  constructor
  · rw [List.foldl_append, ← holds.draft]
    rfl
  · rw [CodeDraft.offsets_emitted_concat, ← holds.offsets, ← holds.draft]
    rfl

/-- With another address an instruction is as long as before, so all offsets stay. -/
theorem offsets_modify (instructions : List Instruction) (index : Nat) (address : Int32) :
    (CodeDraft.emitted {} (instructions.modify index (·.withTarget address))).map (·.offset) =
      (CodeDraft.emitted {} instructions).map (·.offset) := by
  refine CodeDraft.offsets_emitted_congr rfl (List.ext_getElem? fun other => ?_)
  simp only [List.getElem?_map, List.getElem?_modify]
  cases instructions[other]? with
  | none => rfl
  | some instruction => by_cases same : index = other <;> simp [same]

/-- What is patched without an effect is not patched. Only the entry at the index could change, and
giving it another address gives back the same instruction. -/
theorem modify_withTarget_eq_self {instruction : Instruction} {address : Int32}
    (there : instructions[index]? = some instruction) (none : instruction.target? = .none) :
    instructions.modify index (·.withTarget address) = instructions := by
  refine List.ext_getElem? fun other => ?_
  rw [List.getElem?_modify]
  by_cases same : index = other
  · subst same
    simp [there, Instruction.withTarget_of_target?_eq_none none]
  · simp [same]

/-- The list of instructions takes no notice of a patch that is refused. It is refused if there is
no such instruction, if it has no target, or if the target does not fit, and in each case the
revision leaves the list as it is. -/
theorem Holds.patch (holds : session.Holds instructions) :
    (session.edit (.patch index target)).Holds
      (Edit.revise instructions (.patch index target)) := by
  rw [edit, Edit.revise]
  cases given : session.offsets[index]? with
  | none =>
    rw [holds.offsets, List.getElem?_eq_none_iff, List.length_map,
      CodeDraft.length_emitted] at given
    rw [List.modify_eq_self given, ite_self]
    exact holds
  | some offset =>
    obtain ⟨instruction, there, patched⟩ := holds.patch_eq target given
    dsimp only
    rw [patched]
    cases address : instruction.target? with
    | none =>
      rw [modify_withTarget_eq_self there address, ite_self]
      exact holds
    | some _ =>
      by_cases fits : target < 2147483648
      · simp only [Option.isSome_some, if_true, if_pos fits]
        exact ⟨rfl, holds.offsets.trans (offsets_modify ..).symm⟩
      · simp only [Option.isSome_some, if_true, if_neg fits]
        exact holds

/-- One edit, of either kind. -/
theorem Holds.edit (holds : session.Holds instructions) (edit : Edit) :
    (session.edit edit).Holds (Edit.revise instructions edit) := by
  cases edit with
  | emit instruction => exact holds.emit instruction
  | patch index target => exact holds.patch

/-- After any edits the draft holds the instructions as the edits have left them. -/
theorem Holds.edits (holds : session.Holds instructions) (edits : List Edit) :
    (edits.foldl Session.edit session).Holds (edits.foldl Edit.revise instructions) := by
  induction edits generalizing session instructions with
  | nil => exact holds
  | cons edit later goesOn => exact goesOn (holds.edit edit)

/-- Patches of different instructions commute. Both orders revise the list in the same way, as the
two entries are different ones, and the session is determined by the list. -/
theorem Holds.patch_comm (holds : session.Holds instructions) {index' target' : Nat}
    (different : index ≠ index') :
    (session.edit (.patch index target)).edit (.patch index' target') =
      (session.edit (.patch index' target')).edit (.patch index target) := by
  refine (holds.patch.patch).eq ?_
  have comm : Edit.revise (Edit.revise instructions (.patch index target)) (.patch index' target') =
      Edit.revise (Edit.revise instructions (.patch index' target')) (.patch index target) := by
    unfold Edit.revise
    by_cases fits : target < 2147483648 <;> by_cases fits' : target' < 2147483648
    · simp only [fits, fits', if_true]
      exact List.modify_modify_ne _ _ _ different
    all_goals simp only [fits, fits', if_true, if_false]
  rw [comm]
  exact holds.patch.patch

/-- Of two patches of one instruction only the last one is seen, by the same argument: on the list
it overwrites the first. The last target has to fit, since a refused patch would leave the first
one in force. -/
theorem Holds.patch_again (holds : session.Holds instructions) {target' : Nat}
    (fits : target' < 2147483648) :
    (session.edit (.patch index target)).edit (.patch index target') =
      session.edit (.patch index target') := by
  refine (holds.patch.patch).eq ?_
  have last : Edit.revise (Edit.revise instructions (.patch index target)) (.patch index target') =
      Edit.revise instructions (.patch index target') := by
    unfold Edit.revise
    by_cases earlier : target < 2147483648
    · simp only [earlier, fits, if_true]
      rw [List.modify_modify_eq]
      congr 1
      funext instruction
      exact Instruction.withTarget_withTarget
    · simp only [earlier, if_false]
  rw [last]
  exact holds.patch

end Session

/-- Patching gives an instruction another address and does nothing else. Whatever has been emitted
and patched, in any order,
* the code is that of the instructions with the addresses that they have been given last, and each
  stands at the offset that was given for it when it was emitted;
* a patch at such an offset succeeds exactly if the instruction there is a jump, a branch, a
  closure or a call and the target fits in a signed number. Then the code is that of the same
  instructions, this one with another address. Otherwise the draft that is left behind is the one
  there was, and the address is not cut off;
* patches of different instructions commute, and of two patches of one instruction the last one
  counts. -/
theorem patches_change_one_address (edits : List Edit) :
    let session := edits.foldl Session.edit {}
    let instructions := edits.foldl Edit.revise []
    session.draft.code.toList = instructions.flatMap Instruction.encode ∧
    session.offsets = (CodeDraft.emitted {} instructions).map (·.offset) ∧
    (∀ index offset target, session.offsets[index]? = some offset →
      ∃ instruction, instructions[index]? = some instruction ∧
        ((∃ draft, CodeDraft.patch offset target session.draft = .ok () draft) ↔
          instruction.target?.isSome ∧ target < 2147483648) ∧
        (∀ draft, CodeDraft.patch offset target session.draft = .ok () draft →
          draft.code.toList = (instructions.modify index
            (·.withTarget (Int32.ofNat target))).flatMap Instruction.encode) ∧
        ∀ cause left, CodeDraft.patch offset target session.draft = .error cause left →
          cause ≠ .code (.targetCutOff offset) ∧ left = session.draft ∧
            session.edit (.patch index target) = session) ∧
    (∀ index index' target target', index ≠ index' →
      (session.edit (.patch index target)).edit (.patch index' target') =
        (session.edit (.patch index' target')).edit (.patch index target)) ∧
    ∀ index target target', target' < 2147483648 →
      (session.edit (.patch index target)).edit (.patch index target') =
        session.edit (.patch index target') := by
  intro session instructions
  have holds : session.Holds instructions := Session.holds_nil.edits edits
  refine ⟨?_, holds.offsets, ?_, fun _ _ _ _ => holds.patch_comm, fun _ _ _ => holds.patch_again⟩
  · rw [holds.draft, CodeDraft.code_foldl_emit]
    rfl
  · intro index offset target given
    obtain ⟨instruction, there, _⟩ := holds.patch_eq target given
    refine ⟨instruction, there, ?_, fun draft done => ?_, fun cause left refused => ⟨?_, ?_⟩⟩
    · simp [holds.patch_eq_ok_iff given there]
    · obtain ⟨_, rfl⟩ := (holds.patch_eq_ok_iff given there).mp done
      rw [CodeDraft.code_foldl_emit]
      rfl
    · rintro rfl
      exact holds.patch_ne_cutOff given refused
    · obtain rfl : left = session.draft := (CodeDraft.patch_spares offset target).of_error refused
      refine ⟨rfl, ?_⟩
      rw [Session.edit, given]
      dsimp only
      rw [refused]

/-- A branch forward over a closure that has been patched, and over a constant. -/
def forwardBranch : List Edit :=
  [.emit (.jumpIfZero 0), .emit (.closure 0 [⟨.arguments, 0⟩]), .patch 1 19, .emit (.constant 1),
    .emit .stop]

/-- The branch can be patched to the stop, and again to the constant, but the constant cannot.
Patching the closure before or after the branch makes no difference. -/
theorem patches_change_one_address_forwardBranch :
    let session := forwardBranch.foldl Session.edit {}
    session.offsets[0]? = some 0 ∧ session.offsets[2]? = some 19 ∧
    (∃ draft, CodeDraft.patch 0 24 session.draft = .ok () draft ∧ draft.code.toList =
      [Instruction.jumpIfZero 24, .closure 19 [⟨.arguments, 0⟩], .constant 1, .stop].flatMap
        Instruction.encode) ∧
    (¬ ∃ draft, CodeDraft.patch 19 24 session.draft = .ok () draft) ∧
    (session.edit (.patch 0 24)).edit (.patch 1 0) =
      (session.edit (.patch 1 0)).edit (.patch 0 24) ∧
    (session.edit (.patch 0 24)).edit (.patch 0 19) = session.edit (.patch 0 19) := by
  obtain ⟨_, _, patched, comm, again⟩ := patches_change_one_address forwardBranch
  have branch : (forwardBranch.foldl Session.edit {}).offsets[0]? = some 0 := by decide
  have constant : (forwardBranch.foldl Session.edit {}).offsets[2]? = some 19 := by decide
  refine ⟨branch, constant, ?_, ?_, comm 0 1 24 0 (by decide), again 0 24 19 (by decide)⟩
  · obtain ⟨instruction, there, succeeds, gives, _⟩ := patched 0 0 24 branch
    cases there
    obtain ⟨draft, done⟩ := succeeds.mpr ⟨rfl, by decide⟩
    exact ⟨draft, done, gives draft done⟩
  · obtain ⟨instruction, there, succeeds, _⟩ := patched 2 19 24 constant
    cases there
    intro done
    exact absurd (succeeds.mp done).1 (by decide)

end BytecodeMachine
