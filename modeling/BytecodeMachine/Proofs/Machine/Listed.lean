import BytecodeMachine.Proofs.Listing
import BytecodeMachine.Proofs.Machine.Destinations
/-!
# Only what is listed is executed

A run that leaves functions only for offsets behind calls it has made stays on the listing of its
image, if addresses in the listing are those of entries. Three sources of offsets have to be
watched, and one invariant covers them: what is next, where the closures of the heap are
entered, and what is behind the calls that have been made. All of them are offsets of entries
or the end of the code, at which nothing can be read. The end is met by falling behind the
last entry, also by way of a call that stands there.

What stands behind a stop is not listed, and a run that comes to the stop ends there.
-/
namespace BytecodeMachine

/-- An address is the offset of an entry. -/
def Listing.IsListed (entries : List Entry) (address : Int32) : Prop :=
  ∃ entry ∈ entries, (entry.offset : Int) = address.toInt

instance (entries : List Entry) : DecidablePred (Listing.IsListed entries) :=
  fun _ => List.decidableBEx _ _

/-- The address operands in a listing are offsets of its entries. -/
def Listing.TargetsListed (entries : List Entry) : Prop :=
  ∀ entry ∈ entries, ∀ address ∈ entry.instruction.address?, Listing.IsListed entries address

instance : DecidablePred Listing.TargetsListed := fun entries =>
  -- named here, since there are finitely many addresses and all of them could be tried
  have (entry : Entry) : Decidable (∀ address ∈ entry.instruction.address?,
      Listing.IsListed entries address) := Option.decidableForallMem _
  List.decidableBAll _ _

namespace Machine

open BytecodeMachine.Action Listing

section Turns

variable {σ : Type}

/-- What has been executed in a turn, as an entry of a listing. -/
def Turn.entry (turn : Turn σ) : Entry :=
  ⟨turn.before.next, turn.behind - turn.before.next, turn.instruction⟩

/-- Whenever the run has left a function and gone on, it has gone on behind a call it had made
before. The last turn is the first in the list. -/
def ReturnsToCalls : List (Turn σ) → Prop
  | [] => True
  | last :: past =>
    (last.instruction = .leave →
      ∃ call ∈ past, call.instruction.isCall = true ∧ last.after.next = call.behind) ∧
    ReturnsToCalls past

instance decidableReturnsToCalls : DecidablePred (ReturnsToCalls (σ := σ))
  | [] => isTrue trivial
  | _ :: past =>
    have := decidableReturnsToCalls past
    inferInstanceAs (Decidable ((_ → _) ∧ _))

end Turns

variable {image : Image} {entries : List Entry} {entry : Entry} {instruction : Instruction}
  {behind offset : Nat}

/-- What is read where an entry stands is this entry. -/
theorem fetch_of_stands (stands : entry.instruction.CapturesFit ∧ entry.Stands image) :
    fetch image entry.offset = .ok (entry.instruction, entry.offset + entry.length) := by
  rw [fetch, Entry.read_iff.mpr stands]

/-- Addresses that are listed lead to entries. -/
theorem entryAt_of_target {address : Int32} (listed : IsListed entries address)
    (found : target image address = .ok offset) : EntryAt entries offset := by
  obtain ⟨entry, member, same⟩ := listed
  obtain ⟨_, rfl⟩ := target_eq_ok_iff.mp found
  exact ⟨entry, member, by omega⟩

/-- A listing succeeded with these entries, and address operands in it are listed. -/
structure Closed (image : Image) (entries : List Entry) : Prop where
  listing : Listing.entries image = .ok entries
  targets : TargetsListed entries

namespace Closed

variable (closed : Closed image entries)
include closed

/-- The entries are the code, piece by piece. -/
theorem partitions : Partitions image 0 entries := (entries_eq_ok_iff.mp closed.listing).2

/-- Each of them stands in the code where it says and can be encoded. -/
theorem stands (member : entry ∈ entries) :
    entry.instruction.CapturesFit ∧ entry.Stands image :=
  ⟨(entries_eq_ok_iff.mp closed.listing).1 entry member, closed.partitions.stands entry member⟩

/-- Where the machine may be, only entries are read. It is at an entry or at the end of the code,
and at the end nothing can be read. -/
theorem mem_of_fetch (lands : Lands image entries offset)
    (fetched : fetch image offset = .ok (instruction, behind)) :
    ⟨offset, behind - offset, instruction⟩ ∈ entries := by
  obtain ⟨entry, member, rfl⟩ | rfl := lands
  · rw [fetch_of_stands (closed.stands member)] at fetched
    cases fetched
    rw [Nat.add_sub_cancel_left]
    exact member
  · have inside := fetch_inside fetched
    omega

/-- Where the machine may be, nothing but the end of the code cannot be read. -/
theorem eq_size_of_unread {cause : Fault} (lands : Lands image entries offset)
    (unread : fetch image offset = .error cause) : offset = image.code.size := by
  obtain ⟨entry, member, rfl⟩ | atEnd := lands
  · rw [fetch_of_stands (closed.stands member)] at unread
    cases unread
  · exact atEnd

/-- Behind what is read, unless it is a stop, the machine may be. -/
theorem lands_behind (lands : Lands image entries offset)
    (fetched : fetch image offset = .ok (instruction, behind)) (more : instruction ≠ .stop) :
    Lands image entries behind := by
  have inside := fetch_inside fetched
  have there := closed.partitions.lands_behind (closed.mem_of_fetch lands fetched) more
  have same : offset + (behind - offset) = behind := by omega
  rwa [same] at there

end Closed

/-- The offsets that the run can go on at are those of entries, or the end of the code. -/
structure OnListing (image : Image) (entries : List Entry) (past : List (Turn Workspace))
    (m : Machine Workspace) : Prop where
  next : Lands image entries m.next
  closures : EntersOnly (EntryAt entries) m
  behinds : ∀ turn ∈ past, Lands image entries turn.behind
  listed : ∀ turn ∈ past, turn.entry ∈ entries

variable {past : List (Turn Workspace)} {m n : Machine Workspace} {capacity : Nat}
  {input : List UInt8} {sink : Sink}

/-- A new machine goes on at the start of the code, where the first entry stands if there is any.
It has made no closure and no turn. -/
theorem Fresh.onListing (fresh : Fresh image capacity (Workspace.ofInput input sink) m)
    (closed : Closed image entries) : OnListing image entries [] m := by
  refine ⟨?_, ?_, by simp, by simp⟩
  · rw [fresh.next]
    exact closed.partitions.lands_start (Nat.zero_le _)
  · rw [EntersOnly, fresh.host]
    exact Heap.enters_empty rfl

/-- A turn stays on the listing: it goes on behind what it has read, at an operand of an entry,
where a closure is entered or, if it leaves, behind a call that was on the listing. -/
theorem OnListing.turn (onListing : OnListing image entries past m) (closed : Closed image entries)
    (fetched : fetch image m.next = .ok (instruction, behind))
    (advanced : advance image m = .ok .next n)
    (returns : instruction = .leave →
      ∃ call ∈ past, call.instruction.isCall = true ∧ n.next = call.behind) :
    OnListing image entries (⟨m, instruction, behind, n⟩ :: past) n := by
  have executed := executed_of_advance fetched advanced
  have more : instruction ≠ .stop := by
    rintro rfl
    cases executed
  have member := closed.mem_of_fetch onListing.next fetched
  have behindLands := closed.lands_behind onListing.next fetched more
  have operands : ∀ address ∈ instruction.address?, ∀ offset, target image address = .ok offset →
      EntryAt entries offset := by
    intro address has offset found
    exact entryAt_of_target (closed.targets _ member address has) found
  have closures : EntersOnly (EntryAt entries) { m with next := behind } := onListing.closures
  refine ⟨?_, execute_enters operands closures executed, ?_, ?_⟩
  · cases execute_goesOn executed with
    | behind same =>
      rw [same]
      exact behindLands
    | operand has found => exact .inl (operands _ has _ found)
    | closure found entered => exact .inl (onListing.closures _ _ found _ entered)
    | leave leaves =>
      obtain ⟨call, earlier, _, same⟩ := returns leaves
      rw [same]
      exact onListing.behinds call earlier
  · exact List.forall_mem_cons.mpr ⟨behindLands, onListing.behinds⟩
  · exact List.forall_mem_cons.mpr ⟨member, onListing.listed⟩

/-- A whole run stays on the listing. Proof: induction on the history, where each turn executes an
entry and leads to entries only, returns by what is assumed of them. -/
theorem History.onListing (closed : Closed image entries)
    (history : History image capacity (Workspace.ofInput input sink) past m)
    (returns : ReturnsToCalls past) : OnListing image entries past m := by
  induction history with
  | start made =>
    obtain ⟨_, events, ready, prepared, fresh⟩ := start_fresh made
    cases prepared
    exact fresh.onListing closed
  | turn earlier fetched advanced before =>
    exact (before returns.2).turn closed fetched advanced returns.1

/-- If a listing succeeds and address operands in it are listed, a run that leaves functions only
for offsets behind its calls executes entries of the listing and nothing else: each turn so
far was one, and so is what is executed next, whether it goes on, halts or faults. If nothing
can be read next, the run has come to the end of the code. -/
theorem executes_listed_only (listing : Listing.entries image = .ok entries)
    (targets : TargetsListed entries)
    (history : History image capacity (Workspace.ofInput input sink) past m)
    (returns : ReturnsToCalls past) :
    (∀ turn ∈ past, turn.entry ∈ entries) ∧
      (∀ instruction behind, fetch image m.next = .ok (instruction, behind) →
        ⟨m.next, behind - m.next, instruction⟩ ∈ entries) ∧
      ∀ cause, fetch image m.next = .error cause → m.next = image.code.size := by
  have closed : Closed image entries := ⟨listing, targets⟩
  have onListing := history.onListing closed returns
  refine ⟨onListing.listed, ?_, ?_⟩
  · intro instruction behind fetched
    exact closed.mem_of_fetch onListing.next fetched
  · intro cause unread
    exact closed.eq_size_of_unread onListing.next unread

/-- A program that makes a closure and calls it. The closure answers a number, and the code behind
the call leaves the program with it. -/
def calledClosure : Image where
  strings := #[]
  publics := []
  code := (([.enter 2 0, .closure 24 [], .callClosure 0, .leave, .enterClosure 0 0, .constant 5,
    .leave] : List Instruction).flatMap Instruction.encode).toArray
  globals := 0

/-- The run comes back from the closure to the entry behind the call, and all that it has executed
is listed. -/
theorem executes_listed_only_calledClosure :
    ∃ entries past m, Listing.entries calledClosure = .ok entries ∧ TargetsListed entries ∧
      History calledClosure 16 (Workspace.ofInput [] {}) past m ∧ ReturnsToCalls past ∧
      past.map (·.instruction) = [.leave, .constant 5, .enterClosure 0 0, .callClosure 0,
        .closure 24 [], .enter 2 0] ∧
      (∀ turn ∈ past, turn.entry ∈ entries) ∧ ⟨23, 1, .leave⟩ ∈ entries := by
  obtain ⟨first, entries, made, listing, targets, returns, done, next⟩ :
      ∃ first entries,
        (Machine.start calledClosure 16 .boundless (Workspace.ofInput [] {})).2 = .ok first ∧
        Listing.entries calledClosure = .ok entries ∧ TargetsListed entries ∧
        ReturnsToCalls (record calledClosure 6 [] first).1 ∧
        (record calledClosure 6 [] first).1.map (·.instruction) = [.leave, .constant 5,
          .enterClosure 0 0, .callClosure 0, .closure 24 [], .enter 2 0] ∧
        (record calledClosure 6 [] first).2.next = 23 :=
    ⟨_, _, rfl, rfl, by decide +kernel, by decide +kernel, by decide +kernel, by decide +kernel⟩
  have history := (History.start made).record 6
  obtain ⟨listed, reads, _⟩ := executes_listed_only listing targets history returns
  have last := reads .leave 24
  rw [next] at last
  exact ⟨entries, _, _, listing, targets, history, returns, done, listed, last rfl⟩

end Machine

end BytecodeMachine
