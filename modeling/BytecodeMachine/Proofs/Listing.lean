import BytecodeMachine.Instruction.Draft
import BytecodeMachine.Listing
import BytecodeMachine.Proofs.Instruction.Language
import Mathlib.Data.List.Chain
/-!
# What a listing is

The entries of a listing are the code of the image, cut into instructions: they stand one behind
another from the first offset on, each is written in the bytes it is listed for, and they go
on to the first stop or to the end of the code. No other entries do so, which makes this the
definition of the listing, whatever way it is come by.

Code that is drafted is listed as the instructions that were emitted.
-/
namespace BytecodeMachine

variable {image : Image} {start offset : Nat} {entry : Entry} {entries : List Entry}

/-- The bytes of an entry are a form of its instruction: the binary form or, for a stop, any byte
of the family of stops. -/
def Entry.Stands (image : Image) (entry : Entry) : Prop :=
  entry.offset + entry.length ≤ image.code.size ∧
      (entry.bytes image).toList = entry.instruction.encode ∨
    entry.instruction = .stop ∧ entry.length = 1 ∧
      ∃ b : UInt8, image.code[entry.offset]? = some b ∧ b / 16 = 15

/-- An entry stands where its instruction is read over its length. A stop has no captures, so what
is required of their number is met in both ways an entry can stand. -/
theorem Entry.read_iff :
    Instruction.read ⟨image.code, entry.offset⟩ =
        .ok entry.instruction ⟨image.code, entry.offset + entry.length⟩ ↔
      entry.instruction.CapturesFit ∧ entry.Stands image := by
  rw [Instruction.read_over_iff, Entry.Stands, Entry.bytes, and_or_left]
  refine or_congr_right (iff_and_self.mpr ?_)
  rintro ⟨stop, _⟩
  rw [stop]
  exact trivial

/-- No other instruction and no other length is read where an entry stands. -/
theorem Entry.eq_of_read {instruction : Instruction} {n : Nat}
    (read : Instruction.read ⟨image.code, entry.offset⟩ =
      .ok instruction ⟨image.code, entry.offset + n⟩)
    (stands : entry.instruction.CapturesFit ∧ entry.Stands image) :
    instruction = entry.instruction ∧ n = entry.length := by
  have same := read.symm.trans (Entry.read_iff.mpr stands)
  simpa only [EStateM.Result.ok.injEq, Cursor.mk.injEq, Nat.add_left_cancel_iff, true_and]
    using same

/-- There are no empty entries, and none that goes beyond the code: the binary form has an opcode,
and a stop that is read over another byte of its family has that byte. -/
theorem Entry.Stands.inside (stands : entry.Stands image) :
    0 < entry.length ∧ entry.offset + entry.length ≤ image.code.size := by
  obtain ⟨inside, form⟩ | ⟨_, one, b, there, _⟩ := stands
  · have size := congrArg List.length form
    rw [Array.length_toList, Entry.bytes, Array.size_extract, Instruction.encode,
      List.length_cons] at size
    omega
  · have inside := (Array.getElem?_eq_some_iff.mp there).1
    omega

namespace Listing

/-- The entries are the code of the image from an offset on, to the first stop or to the end. -/
structure Partitions (image : Image) (start : Nat) (entries : List Entry) : Prop where
  starts : ∀ first ∈ entries.head?, first.offset = start
  follows : entries.IsChain fun entry next => next.offset = entry.offset + entry.length
  stands : ∀ entry ∈ entries, entry.Stands image
  unstopped : ∀ entry ∈ entries.dropLast, entry.instruction ≠ .stop
  ends : ∀ last ∈ entries.getLast?,
    last.instruction = .stop ∨ last.offset + last.length = image.code.size
  empty : entries = [] ↔ image.code.size ≤ start

/-- No entries are the code from an offset on exactly if the code ends there. -/
theorem partitions_nil : Partitions image start [] ↔ image.code.size ≤ start := by
  constructor
  · intro partitions
    exact partitions.empty.mp rfl
  · intro behind
    exact ⟨by simp, .nil, by simp, by simp, by simp, by simp [behind]⟩

/-- Behind a stop there is nothing: an entry before another one is no stop, so the stop is the
last. -/
theorem partitions_stop (stop : entry.instruction = .stop) :
    Partitions image start (entry :: entries) ↔
      entry.offset = start ∧ entry.Stands image ∧ entries = [] := by
  constructor
  · intro partitions
    refine ⟨partitions.starts entry rfl, partitions.stands entry List.mem_cons_self, ?_⟩
    cases entries with
    | nil => rfl
    | cons next rest => exact absurd stop (partitions.unstopped entry List.mem_cons_self)
  · rintro ⟨rfl, stands, rfl⟩
    have inside := stands.inside
    refine ⟨by simp, .singleton _, by simp [stands], by simp, by simp [stop], ?_⟩
    simp only [List.cons_ne_nil, false_iff]
    omega

/-- What is left without the first entry goes on behind it. If nothing is left the code ends there,
as the first entry was the last and no stop. -/
theorem Partitions.rest (partitions : Partitions image start (entry :: entries))
    (more : entry.instruction ≠ .stop) :
    Partitions image (entry.offset + entry.length) entries := by
  cases entries with
  | nil =>
    have ended := (partitions.ends entry rfl).resolve_left more
    exact partitions_nil.mpr (Nat.le_of_eq ended.symm)
  | cons next others =>
    obtain ⟨follows, later⟩ := List.isChain_cons_cons.mp partitions.follows
    have stands := partitions.stands next (by simp)
    have inside := stands.inside
    refine ⟨by simp [follows], later, ?_, ?_, ?_, ?_⟩
    · exact fun found member => partitions.stands found (List.mem_cons_of_mem _ member)
    · exact fun found member => partitions.unstopped found (List.mem_cons_of_mem _ member)
    · exact fun last member => partitions.ends last (by simpa using member)
    · simp only [List.cons_ne_nil, false_iff]
      omega

/-- An entry may be put before a partition from behind it. If that is empty, the entry is the last
one and ends with the code. -/
theorem Partitions.cons (later : Partitions image (entry.offset + entry.length) entries)
    (stands : entry.Stands image) (more : entry.instruction ≠ .stop) :
    Partitions image entry.offset (entry :: entries) := by
  have inside := stands.inside
  refine ⟨by simp, ?_, ?_, ?_, ?_, ?_⟩
  · exact List.isChain_cons.mpr ⟨later.starts, later.follows⟩
  · exact List.forall_mem_cons.mpr ⟨stands, later.stands⟩
  · cases entries with
    | nil => simp
    | cons next others =>
      rw [List.dropLast_cons_cons, List.forall_mem_cons]
      exact ⟨more, later.unstopped⟩
  · cases entries with
    | nil =>
      have ended := partitions_nil.mp later
      rintro _ ⟨⟩
      exact .inr (Nat.le_antisymm inside.2 ended)
    | cons next others => simpa using later.ends
  · simp only [List.cons_ne_nil, false_iff]
    omega

/-- Behind an entry that is not a stop the partition goes on. The first entry stands where the
partition starts, and the others partition what is behind it. -/
theorem partitions_cons (more : entry.instruction ≠ .stop) :
    Partitions image start (entry :: entries) ↔
      entry.offset = start ∧ entry.Stands image ∧
        Partitions image (start + entry.length) entries := by
  constructor
  · intro partitions
    obtain rfl := partitions.starts entry rfl
    exact ⟨rfl, partitions.stands entry List.mem_cons_self, partitions.rest more⟩
  · rintro ⟨rfl, stands, later⟩
    exact later.cons stands more

/-- At the end of the code nothing is decoded, and there is nothing to partition. An entry would
have to stand there with one byte at least. -/
theorem ok_nil_iff_partitions (behind : image.code.size ≤ offset) :
    (.ok [] : Answer (List Entry)) = .ok entries ↔
      (∀ entry ∈ entries, entry.instruction.CapturesFit) ∧ Partitions image offset entries := by
  rw [Except.ok.injEq]
  constructor
  · rintro rfl
    exact ⟨by simp, partitions_nil.mpr behind⟩
  · rintro ⟨_, partitions⟩
    exact (partitions.empty.mpr behind).symm

variable {fuel : Nat}

/-- Where an instruction is read, it is the first entry, and the others are behind it unless it is
a stop. -/
theorem decodeFrom_of_read {code : Array UInt8} {instruction : Instruction} {n : Nat}
    (inside : ¬ code.size ≤ offset)
    (read : Instruction.read ⟨code, offset⟩ = .ok instruction ⟨code, offset + n⟩) :
    decodeFrom code (fuel + 1) offset = .ok entries ↔
      ∃ rest, entries = ⟨offset, n, instruction⟩ :: rest ∧
        if instruction = .stop then rest = [] else decodeFrom code fuel (offset + n) = .ok rest := by
  rw [decodeFrom, if_neg inside, read]
  simp only [Nat.add_sub_cancel_left]
  by_cases stop : instruction = .stop
  · simp [stop, eq_comm]
  · simp only [stop, if_false]
    cases decodeFrom code fuel (offset + n) <;> simp [eq_comm]

/-- Inside the code an entry is read first, and the others behind it unless it is a stop. To read
an entry is to find it standing in the code with captures that fit, and what stands there is
unique. -/
theorem decodeFrom_succ_eq_ok_iff (inside : ¬ image.code.size ≤ offset) :
    decodeFrom image.code (fuel + 1) offset = .ok entries ↔
      ∃ entry rest, entries = entry :: rest ∧ entry.offset = offset ∧
        entry.instruction.CapturesFit ∧ entry.Stands image ∧
          if entry.instruction = .stop then rest = []
          else decodeFrom image.code fuel (offset + entry.length) = .ok rest := by
  cases read : Instruction.read ⟨image.code, offset⟩ with
  | error cause cursor =>
    rw [decodeFrom, if_neg inside, read]
    refine iff_of_false (by simp) ?_
    rintro ⟨entry, rest, _, rfl, fits, stands, _⟩
    rw [Entry.read_iff.mpr ⟨fits, stands⟩] at read
    cases read
  | ok instruction cursor =>
    obtain ⟨n, rfl⟩ := Instruction.read_leaves_code read
    rw [decodeFrom_of_read inside read]
    constructor
    · rintro ⟨rest, rfl, behind⟩
      obtain ⟨fits, stands⟩ := (@Entry.read_iff image ⟨offset, n, instruction⟩).mp read
      exact ⟨_, rest, rfl, rfl, fits, stands, behind⟩
    · rintro ⟨entry, rest, rfl, rfl, fits, stands, behind⟩
      obtain ⟨rfl, rfl⟩ := Entry.eq_of_read read ⟨fits, stands⟩
      exact ⟨rest, rfl, behind⟩

/-- Decoding from an offset on answers the one partition from there. Proof: induction on the fuel.
Every entry has a byte at least, so behind it there is less left than there is fuel. -/
theorem decodeFrom_eq_ok_iff (enough : image.code.size - offset ≤ fuel) :
    decodeFrom image.code fuel offset = .ok entries ↔
      (∀ entry ∈ entries, entry.instruction.CapturesFit) ∧ Partitions image offset entries := by
  induction fuel generalizing offset entries with
  | zero =>
    have behind : image.code.size ≤ offset := by omega
    rw [decodeFrom, ok_nil_iff_partitions behind]
  | succ fuel later =>
    by_cases behind : image.code.size ≤ offset
    · rw [decodeFrom, if_pos behind, ok_nil_iff_partitions behind]
    rw [decodeFrom_succ_eq_ok_iff behind]
    constructor
    · rintro ⟨entry, rest, rfl, there, fits, stands, others⟩
      by_cases stop : entry.instruction = .stop
      · rw [if_pos stop] at others
        subst others
        exact ⟨by simp [fits], (partitions_stop stop).mpr ⟨there, stands, rfl⟩⟩
      · have positive := stands.inside.1
        rw [if_neg stop, later (by omega)] at others
        rw [List.forall_mem_cons, partitions_cons stop]
        exact ⟨⟨fits, others.1⟩, there, stands, others.2⟩
    · rintro ⟨fit, partitions⟩
      cases entries with
      | nil => exact absurd (partitions_nil.mp partitions) behind
      | cons entry rest =>
        obtain ⟨fits, others⟩ := List.forall_mem_cons.mp fit
        refine ⟨entry, rest, rfl, partitions.starts entry rfl, fits,
          partitions.stands entry List.mem_cons_self, ?_⟩
        by_cases stop : entry.instruction = .stop
        · rw [if_pos stop]
          exact ((partitions_stop stop).mp partitions).2.2
        · obtain ⟨_, stands, goesOn⟩ := (partitions_cons stop).mp partitions
          have positive := stands.inside.1
          rw [if_neg stop, later (by omega)]
          exact ⟨others, goesOn⟩

/-- The listing decodes from the first byte on, so it succeeds with the entries that partition the
whole code and whose captures fit. -/
theorem entries_eq_ok_iff :
    Listing.entries image = .ok entries ↔
      (∀ entry ∈ entries, entry.instruction.CapturesFit) ∧ Partitions image 0 entries :=
  decodeFrom_eq_ok_iff (Nat.le_refl _)

/-- One of the entries stands at this offset. -/
def EntryAt (entries : List Entry) (offset : Nat) : Prop :=
  ∃ entry ∈ entries, entry.offset = offset

/-- An offset at which an entry stands, or the end of the code. -/
def Lands (image : Image) (entries : List Entry) (offset : Nat) : Prop :=
  EntryAt entries offset ∨ offset = image.code.size

/-- Where one lands among entries one lands among more of them. -/
theorem Lands.cons (lands : Lands image entries offset) :
    Lands image (entry :: entries) offset := by
  obtain ⟨found, member, there⟩ | atEnd := lands
  · exact .inl ⟨found, List.mem_cons_of_mem _ member, there⟩
  · exact .inr atEnd

/-- A partition has an entry where it starts, unless it starts at the end. -/
theorem Partitions.lands_start (partitions : Partitions image start entries)
    (inside : start ≤ image.code.size) : Lands image entries start := by
  cases entries with
  | nil => exact .inr (Nat.le_antisymm inside (partitions_nil.mp partitions))
  | cons first rest => exact .inl ⟨first, List.mem_cons_self, partitions.starts first rfl⟩

/-- Behind an entry that is not a stop the next one stands, or the code ends. Proof: induction on
the entries up to this one; those before it are no stops, as nothing comes behind a stop. -/
theorem Partitions.lands_behind (partitions : Partitions image start entries)
    (member : entry ∈ entries) (more : entry.instruction ≠ .stop) :
    Lands image entries (entry.offset + entry.length) := by
  induction entries generalizing start with
  | nil => exact absurd member List.not_mem_nil
  | cons first rest later =>
    by_cases stop : first.instruction = .stop
    · obtain ⟨_, _, rfl⟩ := (partitions_stop stop).mp partitions
      rw [List.mem_singleton.mp member] at more
      exact absurd stop more
    · obtain ⟨rfl, stands, goesOn⟩ := (partitions_cons stop).mp partitions
      obtain rfl | member := List.mem_cons.mp member
      · exact (goesOn.lands_start stands.inside.2).cons
      · exact (later goesOn member).cons

end Listing

namespace CodeDraft

variable {draft : CodeDraft} {instructions : List Instruction}

/-- The entries of instructions that are emitted one after another: each stands where the draft
has come to when it is emitted. -/
def emitted (draft : CodeDraft) : List Instruction → List Entry
  | [] => []
  | instruction :: rest =>
    ⟨draft.here, instruction.encode.length, instruction⟩ :: (draft.emit instruction).emitted rest

/-- Entries up to and including the first stop. -/
def throughStop : List Entry → List Entry
  | [] => []
  | entry :: rest => if entry.instruction = .stop then [entry] else entry :: throughStop rest

/-- The place behind what has been emitted moves on by the length of the encoding. -/
theorem here_emit (instruction : Instruction) :
    (draft.emit instruction).here = draft.here + instruction.encode.length := by
  rw [here, emit, here, ← Array.length_toList, Array.toList_appendList, List.length_append,
    Array.length_toList]

/-- Emitting adds the binary forms to the code. -/
theorem code_foldl_emit :
    (instructions.foldl emit draft).code.toList =
      draft.code.toList ++ instructions.flatMap Instruction.encode := by
  induction instructions generalizing draft with
  | nil => simp
  | cons instruction rest later => simp [later, emit, List.append_assoc]

/-- An instruction that is emitted stands where the draft had come to, also in the code that is
complete. -/
theorem stands_emit {instruction : Instruction} {rest : List Instruction}
    (drafted : image.code = ((instruction :: rest).foldl emit draft).code) :
    (Entry.mk draft.here instruction.encode.length instruction).Stands image := by
  have code : image.code.toList = draft.code.toList ++
      (instruction.encode ++ rest.flatMap Instruction.encode) := by
    rw [drafted, code_foldl_emit, List.flatMap_cons]
  have size := congrArg List.length code
  simp only [Array.length_toList, List.length_append] at size
  refine .inl ⟨?_, ?_⟩
  · dsimp only [here]
    omega
  · rw [Entry.bytes, Array.toList_extract, code, List.extract_eq_take_drop, here,
      Nat.add_sub_cancel_left, ← Array.length_toList, List.drop_left, List.take_left]

/-- Code that is drafted is partitioned by what was emitted. Proof: induction on the instructions,
with each one standing at the place where it was emitted. -/
theorem partitions_emitted (drafted : image.code = (instructions.foldl emit draft).code) :
    Listing.Partitions image draft.here (throughStop (draft.emitted instructions)) := by
  induction instructions generalizing draft with
  | nil =>
    apply Listing.partitions_nil.mpr
    rw [drafted]
    exact Nat.le_refl _
  | cons instruction rest later =>
    have stands := stands_emit drafted
    rw [emitted, throughStop]
    split
    · next stop => exact (Listing.partitions_stop stop).mpr ⟨rfl, stands, rfl⟩
    · next more =>
      refine (Listing.partitions_cons more).mpr ⟨rfl, stands, ?_⟩
      rw [← here_emit]
      exact later drafted

/-- Stopping early leaves entries out and brings in none. Proof: induction on the entries, which
are kept one by one until the first stop. -/
theorem mem_of_mem_throughStop {listed : List Entry} (member : entry ∈ throughStop listed) :
    entry ∈ listed := by
  induction listed with
  | nil => exact member
  | cons first rest later =>
    rw [throughStop] at member
    split at member
    · rw [List.mem_singleton.mp member]
      exact List.mem_cons_self
    · obtain rfl | member := List.mem_cons.mp member
      · exact List.mem_cons_self
      · exact List.mem_cons_of_mem _ (later member)

/-- The entries of a draft hold the instructions that have been emitted. -/
theorem mem_of_mem_emitted (member : entry ∈ draft.emitted instructions) :
    entry.instruction ∈ instructions := by
  induction instructions generalizing draft with
  | nil => exact absurd member List.not_mem_nil
  | cons instruction rest later =>
    obtain rfl | member := List.mem_cons.mp member
    · exact List.mem_cons_self
    · exact List.mem_cons_of_mem _ (later member)

end CodeDraft

/-- The listing of an image is the one partition of its code: it succeeds with these entries
exactly if they stand one behind another from the first offset on, each over bytes that are a
form of its instruction, with a stop nowhere but at the end, and at the end a stop or the end
of the code. Instructions that were emitted are listed through the first stop, each at the
offset the draft had come to. -/
theorem listing_partitions_code (image : Image) :
    (∀ entries : List Entry, (∀ entry ∈ entries, entry.instruction.CapturesFit) →
      (Listing.entries image = .ok entries ↔ Listing.Partitions image 0 entries)) ∧
    ∀ instructions : List Instruction, (∀ instruction ∈ instructions, instruction.CapturesFit) →
      image.code = (instructions.foldl CodeDraft.emit {}).code →
        Listing.entries image = .ok (CodeDraft.throughStop (CodeDraft.emitted {} instructions)) := by
  constructor
  · intro entries fit
    rw [Listing.entries_eq_ok_iff, and_iff_right fit]
  · intro instructions fit drafted
    refine Listing.entries_eq_ok_iff.mpr ⟨?_, CodeDraft.partitions_emitted drafted⟩
    intro entry member
    have listed := CodeDraft.mem_of_mem_throughStop member
    exact fit _ (CodeDraft.mem_of_mem_emitted listed)

/-- A jump over a stop, with a drop behind it that is not listed. -/
def jumpToStop : List Instruction := [.jump 5, .stop, .drop]

/-- The image of these instructions is listed through the stop, and the listing leaves out what
stands behind it. -/
theorem listing_partitions_code_jumpToStop :
    let image : Image := ⟨#[], [], (jumpToStop.foldl CodeDraft.emit {}).code, 0⟩
    Listing.Partitions image 0 [⟨0, 5, .jump 5⟩, ⟨5, 1, .stop⟩] ∧
      Listing.entries image = .ok (CodeDraft.throughStop (CodeDraft.emitted {} jumpToStop)) ∧
      CodeDraft.throughStop (CodeDraft.emitted {} jumpToStop) =
        [⟨0, 5, .jump 5⟩, ⟨5, 1, .stop⟩] := by
  have listing := listing_partitions_code
    ⟨#[], [], (jumpToStop.foldl CodeDraft.emit {}).code, 0⟩
  have fit : ∀ instruction ∈ jumpToStop, instruction.CapturesFit := by
    simp [jumpToStop, Instruction.CapturesFit]
  have listed := listing.2 jumpToStop fit rfl
  have shown : CodeDraft.throughStop (CodeDraft.emitted {} jumpToStop) =
      [⟨0, 5, .jump 5⟩, ⟨5, 1, .stop⟩] := by decide
  refine ⟨(listing.1 _ ?_).mp (shown ▸ listed), listed, shown⟩
  simp [Instruction.CapturesFit]

end BytecodeMachine
