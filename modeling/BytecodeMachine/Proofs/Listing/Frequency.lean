import BytecodeMachine.Listing.Frequency
import BytecodeMachine.Proofs.Listing
import Mathlib.Algebra.BigOperators.Group.List.Lemmas
import Mathlib.Algebra.GroupWithZero.Nat
import Mathlib.Data.List.Dedup
import Mathlib.Data.Set.List
import Mathlib.Tactic.Choose
/-!
# What a report of frequencies is

Instructions are told apart by their bytes. A report has each of them once, says how often the
listing has it, and shows it as the listing does where it stands first. The frequencies come in an
order in which no two of them are level, so they have one place each, and a report is determined by
what it says. It does not matter in which order the instructions were met.

That there is a report if there is a listing is plain, since it shows nothing else. Conversely a
report shows an instruction once, and the listing shows it each time. Equal bytes are read as the
same instruction, whose operands are looked up in the same table.
-/
namespace BytecodeMachine

/-! ### Answers one after another -/

namespace Answer

variable {α β : Type} {f : α → Answer β} {given : List α} {answers : List β}

/-- All answers are given, or there is a fault. Proof: induction on what is asked; the answers come
in the order of the questions, and a fault at any of them takes the place of all. -/
theorem mapM_eq_ok_iff : given.mapM f = .ok answers ↔ given.map f = answers.map .ok := by
  induction given generalizing answers with
  | nil => cases answers <;> simp [pure, Except.pure]
  | cons a rest later =>
    rw [List.mapM_cons, List.map_cons]
    cases answers with
    | nil =>
      cases f a <;> cases rest.mapM f <;> simp [bind, Except.bind, pure, Except.pure]
    | cons b others =>
      rw [List.map_cons, List.cons.injEq, ← later]
      cases f a <;> cases rest.mapM f <;> simp [bind, Except.bind, pure, Except.pure]

/-- A list is mapped without a fault if each of its elements is: a list is an image of answers
exactly if all its elements are answers. -/
theorem exists_mapM_eq_ok_iff :
    (∃ answers, given.mapM f = .ok answers) ↔ ∀ a ∈ given, ∃ b, f a = .ok b := by
  have range := Set.ext_iff.mp (Set.range_list_map (Except.ok (ε := Fault) (α := β))) (given.map f)
  simp only [mapM_eq_ok_iff, eq_comm (a := given.map f), eq_comm (a := f _)]
  exact range.trans List.forall_mem_map

end Answer

/-! ### Equal bytes -/

section

variable {image : Image} {entry other : Entry}

/-- The instruction of an entry is read from the bytes of the entry alone. Nothing behind them has
been looked at, and a stop over another byte of its family is a stop again. -/
theorem Entry.read_bytes (fits : entry.instruction.CapturesFit) (stands : entry.Stands image) :
    Instruction.read ⟨entry.bytes image, 0⟩ =
      .ok entry.instruction ⟨entry.bytes image, 0 + entry.length⟩ := by
  have inside := stands.inside
  have size : (entry.bytes image).size = 0 + entry.length := by
    rw [Entry.bytes, Array.size_extract]
    omega
  rw [Instruction.read_over_iff]
  obtain ⟨_, form⟩ | ⟨stop, one, b, there, family⟩ := stands
  · refine .inl ⟨fits, Nat.le_of_eq size.symm, ?_⟩
    rw [← size, Array.extract_size, form]
  · refine .inr ⟨stop, one, b, ?_, family⟩
    rw [Entry.bytes, Array.getElem?_extract, if_pos (by omega)]
    exact there

/-- Entries with the same bytes have the same instruction. -/
theorem Entry.instruction_eq (fits : entry.instruction.CapturesFit)
    (fits' : other.instruction.CapturesFit) (stands : entry.Stands image)
    (stands' : other.Stands image) (same : entry.bytes image = other.bytes image) :
    entry.instruction = other.instruction := by
  have read := Entry.read_bytes fits stands
  rw [same, Entry.read_bytes fits' stands'] at read
  injection read with instruction
  exact instruction.symm

end

/-! ### Counting -/

/-- The bytes of the entries. -/
def Listing.forms (image : Image) (entries : List Entry) : List (List UInt8) :=
  entries.map fun entry => (entry.bytes image).toList

/-- The bytes of the last entry come last. -/
theorem Listing.forms_concat {image : Image} (entries : List Entry) (entry : Entry) :
    forms image (entries ++ [entry]) = forms image entries ++ [(entry.bytes image).toList] := by
  rw [forms, List.map_append]
  rfl

namespace Tally

open Listing

variable {image : Image} {entry : Entry} {entries : List Entry} {bytes : List UInt8}
  {tally : Tally} {met : List Tally}

/-- An instruction is met once more if these are its bytes. -/
def again (bytes : List UInt8) (tally : Tally) : Tally :=
  { tally with count := tally.count + [bytes].count tally.bytes }

/-- Other bytes do not count. -/
theorem again_of_ne (other : tally.bytes ≠ bytes) : tally.again bytes = tally := by
  rw [again, List.count_eq_zero_of_not_mem (mt List.mem_singleton.mp other)]
  rfl

/-- An instruction that is known is counted where it is. Proof: induction on the tallies, of which
exactly one has its bytes. -/
theorem add_of_mem (distinct : (met.map Tally.bytes).Nodup) (known : bytes ∈ met.map Tally.bytes) :
    add entry bytes met = met.map (again bytes) := by
  induction met with
  | nil => cases known
  | cons first rest later =>
    obtain ⟨once, distinct⟩ := List.nodup_cons.mp distinct
    rw [add, List.map_cons]
    split
    · next same =>
      have others : rest.map (again bytes) = rest := by
        refine (List.map_congr_left fun tally member => ?_).trans rest.map_id
        exact again_of_ne fun level => once (same ▸ level ▸ List.mem_map_of_mem member)
      rw [others, again, same, List.count_singleton_self]
    · next other =>
      have known := (List.mem_cons.mp known).resolve_left (Ne.symm other)
      rw [later distinct known, again_of_ne other]

/-- An instruction that is not known comes behind the others. -/
theorem add_of_not_mem (fresh : bytes ∉ met.map Tally.bytes) :
    add entry bytes met = met ++ [⟨1, entry, bytes⟩] := by
  induction met with
  | nil => rfl
  | cons first rest later =>
    rw [List.map_cons, List.mem_cons, not_or] at fresh
    rw [add, if_neg (Ne.symm fresh.1), later fresh.2, List.cons_append]

/-- What has been met in these entries: each instruction once, with how often it occurs and where
first. -/
structure Counts (image : Image) (entries : List Entry) (met : List Tally) : Prop where
  distinct : (met.map Tally.bytes).Nodup
  known : ∀ bytes, bytes ∈ met.map Tally.bytes ↔ bytes ∈ forms image entries
  count : ∀ tally ∈ met, tally.count = (forms image entries).count tally.bytes
  first : ∀ tally ∈ met, entries[(forms image entries).idxOf tally.bytes]? = some tally.first

/-- What has been met occurs first where it did, whatever is met behind. -/
theorem Counts.first_concat (counts : Counts image entries met) (tally : Tally)
    (member : tally ∈ met) :
    (entries ++ [entry])[(forms image (entries ++ [entry])).idxOf tally.bytes]? =
      some tally.first := by
  have there := (counts.known _).mp (List.mem_map_of_mem member)
  have first := counts.first tally member
  obtain ⟨inside, _⟩ := List.getElem?_eq_some_iff.mp first
  rw [forms_concat, List.idxOf_append_of_mem there, List.getElem?_append_left inside, first]

/-- One more entry is counted. If its bytes are known, their tally has one more and the others are
as they were. If they are new, there is one more tally, which has met them first at this entry. -/
theorem Counts.add (counts : Counts image entries met) (entry : Entry) :
    Counts image (entries ++ [entry]) (add entry (entry.bytes image).toList met) := by
  by_cases known : (entry.bytes image).toList ∈ met.map Tally.bytes
  · have bytes : (met.map (again (entry.bytes image).toList)).map Tally.bytes =
        met.map Tally.bytes := by
      rw [List.map_map]
      rfl
    rw [add_of_mem counts.distinct known]
    refine ⟨?_, fun other => ?_, ?_, ?_⟩
    · rw [bytes]
      exact counts.distinct
    · rw [bytes, forms_concat, List.mem_append, List.mem_singleton, counts.known]
      refine (or_iff_left_of_imp ?_).symm
      rintro rfl
      exact (counts.known _).mp known
    · refine List.forall_mem_map.mpr fun tally member => ?_
      rw [forms_concat, List.count_append, again, counts.count tally member]
    · exact List.forall_mem_map.mpr fun tally member => counts.first_concat tally member
  · have fresh := mt (counts.known _).mpr known
    rw [add_of_not_mem known]
    refine ⟨?_, fun other => ?_, ?_, ?_⟩
    · rw [List.map_append]
      exact (List.perm_append_singleton _ _).nodup_iff.mpr
        (List.nodup_cons.mpr ⟨known, counts.distinct⟩)
    · rw [List.map_append, forms_concat, List.mem_append, List.mem_append, counts.known]
      rfl
    · refine List.forall_mem_append.mpr ⟨fun tally member => ?_, List.forall_mem_singleton.mpr ?_⟩
      · have other : tally.bytes ≠ (entry.bytes image).toList := fun same =>
          known (same ▸ List.mem_map_of_mem member)
        rw [forms_concat, List.count_append, counts.count tally member,
          List.count_eq_zero_of_not_mem (mt List.mem_singleton.mp other), Nat.add_zero]
      · rw [forms_concat, List.count_append, List.count_eq_zero_of_not_mem fresh,
          List.count_singleton_self]
    · refine List.forall_mem_append.mpr ⟨counts.first_concat, List.forall_mem_singleton.mpr ?_⟩
      rw [forms_concat, List.idxOf_append_of_notMem fresh, List.idxOf_cons_self, forms,
        List.length_map]
      exact List.getElem?_concat_length

/-- It does not matter in which order the instructions are kept. -/
theorem Counts.perm {kept : List Tally} (counts : Counts image entries met) (perm : kept.Perm met) :
    Counts image entries kept where
  distinct := (perm.map _).nodup_iff.mpr counts.distinct
  known bytes := (perm.map _).mem_iff.trans (counts.known bytes)
  count tally member := counts.count tally (perm.mem_iff.mp member)
  first tally member := counts.first tally (perm.mem_iff.mp member)

/-- The tallies count the entries, by induction with the last entry taken off: it is counted once
more or begins a tally of its own, behind those of the entries before it. -/
theorem counts_ofEntries (image : Image) (entries : List Entry) :
    Counts image entries (ofEntries image entries) := by
  induction entries using List.reverseRecOn with
  | nil => exact ⟨List.nodup_nil, fun _ => Iff.rfl, by simp [ofEntries], by simp [ofEntries]⟩
  | append_singleton entries entry earlier =>
    rw [ofEntries, List.foldl_append]
    exact earlier.add entry

/-- Where an instruction was met first its bytes are. -/
theorem Counts.bytes_first (counts : Counts image entries met) (member : tally ∈ met) :
    tally.first ∈ entries ∧ (tally.first.bytes image).toList = tally.bytes := by
  have first := counts.first tally member
  have there := List.getElem?_idxOf ((counts.known _).mp (List.mem_map_of_mem member))
  rw [forms, List.getElem?_map, ← forms, first] at there
  exact ⟨List.mem_of_getElem? first, Option.some.inj there⟩

/-- The instruction of each entry has been met. -/
theorem Counts.exists_met (counts : Counts image entries met) (member : entry ∈ entries) :
    ∃ tally ∈ met, tally.bytes = (entry.bytes image).toList :=
  List.mem_map.mp ((counts.known _).mpr (List.mem_map_of_mem member))

end Tally

/-! ### The order of a report -/

namespace Frequency

variable {a b c : Frequency} {report : List Frequency}

/-- What occurs more often comes first, and of what is equally frequent the smaller bytes do. -/
def Precedes (a b : Frequency) : Prop :=
  b.count < a.count ∨ a.count = b.count ∧ a.bytes < b.bytes

instance : DecidableRel Precedes := fun _ _ => inferInstanceAs (Decidable (_ ∨ _))

/-- The order that is computed on bytes is the lexicographic order of lists. -/
theorem bytesLe_iff {bytes other : List UInt8} : bytesLe bytes other ↔ bytes ≤ other := by
  induction bytes generalizing other with
  | nil => simp [bytesLe]
  | cons first rest later =>
    cases other with
    | nil => simp [bytesLe]
    | cons first' rest' => simp [bytesLe, List.cons_le_cons_iff, later]

/-- More often comes first, and where the counts are the same the order of bytes decides. -/
theorem before_iff :
    before a b ↔ b.count < a.count ∨ a.count = b.count ∧ a.bytes ≤ b.bytes := by
  simp [before, bytesLe_iff]

/-- This is transitive, since both parts are. -/
theorem before_trans (first : before a b) (second : before b c) : before a c := by
  rw [before_iff] at *
  obtain more | ⟨level, le⟩ := first
  · exact .inl (by omega)
  obtain more | ⟨level', le'⟩ := second
  · exact .inl (by omega)
  · exact .inr ⟨level.trans level', List.le_trans le le'⟩

/-- It is total as well: either count is greater, or the bytes are compared. -/
theorem before_total : before a b || before b a := by
  rw [Bool.or_eq_true, before_iff, before_iff]
  obtain less | level | more := Nat.lt_trichotomy a.count b.count
  · exact .inr (.inl less)
  · exact (List.le_total a.bytes b.bytes).imp (fun le => .inr ⟨level, le⟩)
      fun le => .inr ⟨level.symm, le⟩
  · exact .inl (.inl more)

/-- Of two tallies at most one strictly precedes the other. -/
theorem Precedes.asymm (first : Precedes a b) : ¬ Precedes b a := by
  obtain more | ⟨level, less⟩ := first
  · rintro (more' | ⟨level', _⟩) <;> omega
  · rintro (more' | ⟨_, less'⟩)
    · omega
    · exact List.lt_asymm less less'

/-- Frequencies of different instructions are never level. Sorting puts each behind those it does
not come before, and of equal counts the bytes decide, which are different ones. -/
theorem pairwise_precedes_mergeSort (distinct : (report.map bytes).Nodup) :
    (report.mergeSort before).Pairwise Precedes := by
  have sorted : (report.mergeSort before).Pairwise (before · ·) :=
    @List.pairwise_mergeSort _ before (fun _ _ _ => before_trans) (fun _ _ => before_total) report
  have perm := (List.mergeSort_perm report before).map bytes
  have apart := List.pairwise_map.mp (perm.nodup_iff.mpr distinct)
  refine sorted.imp₂ (fun a b before other => ?_) apart
  obtain more | ⟨level, le⟩ := before_iff.mp before
  · exact .inl more
  · exact .inr ⟨level, Std.lt_of_le_of_ne le other⟩

/-! ### Reports -/

open Listing

/-- The report of a listing with these entries and lines. The bytes of an instruction have the same
index in the entries as the line in which it is listed first. -/
structure Reports (image : Image) (entries : List Entry) (lines : List String)
    (report : List Frequency) : Prop where
  once : (report.map bytes).Perm (forms image entries).dedup
  count : ∀ frequency ∈ report,
    frequency.count = (forms image entries).count frequency.bytes
  total : (report.map Frequency.count).sum = lines.length
  offset : ∀ frequency ∈ report,
    (entries[(forms image entries).idxOf frequency.bytes]?).map Entry.offset = some frequency.offset
  line : ∀ frequency ∈ report, lines[(forms image entries).idxOf frequency.bytes]? =
    some (Hexadecimal.offset frequency.offset ++ ":\t" ++ frequency.mnemonic)
  ordered : report.Pairwise Precedes

variable {image : Image} {entries : List Entry} {lines : List String} {other : List Frequency}

/-- The counts of all instructions add up to the number of entries: each entry is counted once,
with the bytes that it has. -/
theorem sum_count (once : (report.map bytes).Perm (forms image entries).dedup)
    (count : ∀ frequency ∈ report, frequency.count = (forms image entries).count frequency.bytes) :
    (report.map Frequency.count).sum = entries.length := by
  calc (report.map Frequency.count).sum
      = (report.map fun frequency => (forms image entries).count frequency.bytes).sum := by
        rw [List.map_congr_left count]
    _ = ((report.map bytes).map fun bytes => (forms image entries).count bytes).sum := by
        rw [List.map_map]
        rfl
    _ = ((forms image entries).dedup.map fun bytes => (forms image entries).count bytes).sum :=
        (once.map _).sum_nat
    _ = (forms image entries).length := by
        rw [lawful_beq_subsingleton List.instBEq instBEqOfDecidableEq]
        exact List.sum_map_count_dedup_eq_length _
    _ = entries.length := List.length_map ..

/-- What is reported of an instruction is determined by its bytes: its count, where it stands
first, and what the line there shows. -/
theorem Reports.mem_of_mem (reports : Reports image entries lines report)
    (reports' : Reports image entries lines other) (member : a ∈ report) : a ∈ other := by
  have known : a.bytes ∈ other.map bytes :=
    (reports.once.trans reports'.once.symm).subset (List.mem_map_of_mem member)
  obtain ⟨b, member', same⟩ := List.mem_map.mp known
  have count := reports'.count b member'
  have offset := reports'.offset b member'
  have line := reports'.line b member'
  rw [same, ← reports.count a member] at count
  rw [same, reports.offset a member] at offset
  rw [same, reports.line a member, ← Option.some.inj offset] at line
  have mnemonic := (String.append_right_inj _).mp (Option.some.inj line)
  have level : a = b := by
    cases a
    cases b
    exact (Frequency.mk.injEq ..).mpr ⟨count.symm, mnemonic, Option.some.inj offset, same.symm⟩
  rwa [level]

/-- There is one report of a listing. Two reports have the same members, so the one is a
permutation of the other, and both are in the order that admits only one. -/
theorem Reports.unique (reports : Reports image entries lines report)
    (reports' : Reports image entries lines other) : report = other := by
  have nodup {report} (reports : Reports image entries lines report) : report.Nodup :=
    .of_map _ (reports.once.nodup_iff.mpr (List.nodup_dedup _))
  have perm : report.Perm other :=
    (List.perm_ext_iff_of_nodup (nodup reports) (nodup reports')).mpr fun a =>
      ⟨reports.mem_of_mem reports', reports'.mem_of_mem reports⟩
  exact perm.eq_of_pairwise (fun _ _ _ _ first second => absurd second first.asymm)
    reports.ordered reports'.ordered

end Frequency

namespace Tally

open Listing

variable {image : Image} {entries : List Entry} {met : List Tally} {lines : List String}

/-- The report of what has been met, in whatever order it is kept. -/
def report (image : Image) (met : List Tally) : Answer (List Frequency) := do
  return (← met.mapM (frequency image)).mergeSort Frequency.before

/-- What has been met is shown as it is in the listing. Its first entry has a line there, and the
mnemonic in this line is the one that the tally asks for. -/
theorem Counts.shown (counts : Counts image entries met)
    (listed : entries.mapM (Entry.line image) = .ok lines) (tally : Tally) (member : tally ∈ met) :
    ∃ mnemonic, tally.frequency image =
        .ok ⟨tally.count, mnemonic, tally.first.offset, tally.bytes⟩ ∧
      lines[(forms image entries).idxOf tally.bytes]? =
        some (Hexadecimal.offset tally.first.offset ++ ":\t" ++ mnemonic) := by
  have line := congrArg (·[(forms image entries).idxOf tally.bytes]?)
    (Answer.mapM_eq_ok_iff.mp listed)
  simp only [List.getElem?_map, counts.first tally member, Option.map_some] at line
  obtain ⟨_, there, line⟩ := Option.map_eq_some_iff.mp line.symm
  obtain ⟨mnemonic, named, shown⟩ := Answer.bind_eq_ok_iff.mp line.symm
  cases shown
  exact ⟨mnemonic, Answer.bind_eq_ok_iff.mpr ⟨mnemonic, named, rfl⟩, there⟩

/-- What has been met in the entries of a listing is reported. The line of the first entry of a
tally gives its mnemonic; sorting keeps the frequencies, and puts them in the order since no two
have the same bytes. -/
theorem Counts.reports (counts : Counts image entries met)
    (listed : entries.mapM (Entry.line image) = .ok lines) :
    ∃ frequencies, report image met = .ok frequencies ∧
      Frequency.Reports image entries lines frequencies := by
  choose! mnemonic shown line using counts.shown listed
  let reported : List Frequency := met.map fun tally =>
    ⟨tally.count, mnemonic tally, tally.first.offset, tally.bytes⟩
  have named : met.mapM (Tally.frequency image) = .ok reported := by
    rw [Answer.mapM_eq_ok_iff, List.map_map]
    exact List.map_congr_left shown
  have bytes : reported.map Frequency.bytes = met.map Tally.bytes := List.map_map
  have perm := List.mergeSort_perm reported Frequency.before
  have once : (reported.map Frequency.bytes).Perm (forms image entries).dedup := by
    rw [bytes, List.perm_ext_iff_of_nodup counts.distinct (List.nodup_dedup _)]
    intro bytes
    rw [counts.known, List.mem_dedup]
  have count : ∀ frequency ∈ reported,
      frequency.count = (forms image entries).count frequency.bytes :=
    List.forall_mem_map.mpr counts.count
  refine ⟨reported.mergeSort Frequency.before, ?_, (perm.map _).trans once, ?_, ?_, ?_, ?_, ?_⟩
  · exact Answer.bind_eq_ok_iff.mpr ⟨reported, named, rfl⟩
  · exact fun frequency member => count frequency (perm.mem_iff.mp member)
  · have lengths := congrArg List.length (Answer.mapM_eq_ok_iff.mp listed)
    rw [List.length_map, List.length_map] at lengths
    rw [(perm.map _).sum_nat, Frequency.sum_count once count, lengths]
  · intro frequency member
    obtain ⟨tally, known, rfl⟩ := List.mem_map.mp (perm.mem_iff.mp member)
    rw [counts.first tally known]
    rfl
  · intro frequency member
    obtain ⟨tally, known, rfl⟩ := List.mem_map.mp (perm.mem_iff.mp member)
    exact line tally known
  · exact Frequency.pairwise_precedes_mergeSort (bytes ▸ counts.distinct)

/-- In whatever order the instructions are kept, there is one report of the entries of a listing. -/
theorem exists_report (listed : entries.mapM (Entry.line image) = .ok lines) :
    ∃ frequencies, Frequency.Reports image entries lines frequencies ∧
      ∀ met, met.Perm (ofEntries image entries) → report image met = .ok frequencies := by
  have counts := counts_ofEntries image entries
  obtain ⟨frequencies, _, reports⟩ := counts.reports listed
  refine ⟨frequencies, reports, fun met perm => ?_⟩
  obtain ⟨other, reported, reports'⟩ := (counts.perm perm).reports listed
  rw [reported, reports'.unique reports]

/-- What is listed is shown as where it was met first. Entries with the same bytes are the same
instruction, which the first of them shows. -/
theorem Counts.listed (counts : Counts image entries met)
    (decoded : Listing.entries image = .ok entries) {frequencies : List Frequency}
    (reported : report image met = .ok frequencies) :
    ∃ lines, entries.mapM (Entry.line image) = .ok lines := by
  obtain ⟨fit, partitions⟩ := Listing.entries_eq_ok_iff.mp decoded
  obtain ⟨unsorted, named, _⟩ := Answer.bind_eq_ok_iff.mp reported
  refine Answer.exists_mapM_eq_ok_iff.mpr fun entry member => ?_
  obtain ⟨tally, known, same⟩ := counts.exists_met member
  obtain ⟨earlier, bytes⟩ := counts.bytes_first known
  have level : tally.first.instruction = entry.instruction :=
    Entry.instruction_eq (fit _ earlier) (fit _ member) (partitions.stands _ earlier)
      (partitions.stands _ member) (Array.toList_inj.mp (bytes.trans same))
  obtain ⟨_, shown⟩ := Answer.exists_mapM_eq_ok_iff.mp ⟨unsorted, named⟩ tally known
  obtain ⟨mnemonic, named, _⟩ := Answer.bind_eq_ok_iff.mp shown
  rw [level] at named
  exact ⟨_, Answer.bind_eq_ok_iff.mpr ⟨mnemonic, named, rfl⟩⟩

end Tally

namespace Image

variable {image : Image} {lines : List String} {report : List Frequency}

/-- A listing is made by decoding the entries and then writing a line for each. -/
theorem listing_eq_ok_iff : image.listing = .ok lines ↔
    ∃ entries, Listing.entries image = .ok entries ∧ entries.mapM (Entry.line image) = .ok lines :=
  Answer.bind_eq_ok_iff

/-- A report is made by decoding the same entries and then reporting their tallies. -/
theorem frequencies_eq_ok_iff : image.frequencies = .ok report ↔
    ∃ entries, Listing.entries image = .ok entries ∧
      Tally.report image (Tally.ofEntries image entries) = .ok report :=
  Answer.bind_eq_ok_iff

/-- If there is a report then there is a listing, of the same entries: every form that occurs has
been written as a line once, and entries of one form have one line. -/
theorem listed_of_frequencies (reported : image.frequencies = .ok report) :
    ∃ entries lines, Listing.entries image = .ok entries ∧
      entries.mapM (Entry.line image) = .ok lines ∧
      Tally.report image (Tally.ofEntries image entries) = .ok report := by
  obtain ⟨entries, decoded, reported⟩ := frequencies_eq_ok_iff.mp reported
  obtain ⟨lines, listed⟩ := (Tally.counts_ofEntries image entries).listed decoded reported
  exact ⟨entries, lines, decoded, listed, reported⟩

end Image

/-- There is a report if and only if there is a listing, and it is the report of this listing: the
only list of frequencies that has each instruction of the listing once, with the number of lines it
takes, the offset at which it stands first and the mnemonic that is shown there, in the order of
their counts and, of what is equally frequent, of their bytes. The instructions may be kept in any
order before they are sorted. -/
theorem frequencies_report_listing (image : Image) :
    ((∃ report, image.frequencies = .ok report) ↔ ∃ lines, image.listing = .ok lines) ∧
    ∀ report, image.frequencies = .ok report →
      ∃ entries lines, Listing.entries image = .ok entries ∧ image.listing = .ok lines ∧
        Frequency.Reports image entries lines report ∧
        (∀ other, Frequency.Reports image entries lines other → other = report) ∧
        ∀ met, met.Perm (Tally.ofEntries image entries) → Tally.report image met = .ok report := by
  refine ⟨⟨?_, ?_⟩, ?_⟩
  · rintro ⟨report, reported⟩
    obtain ⟨entries, lines, decoded, listed, _⟩ := Image.listed_of_frequencies reported
    exact ⟨lines, Image.listing_eq_ok_iff.mpr ⟨entries, decoded, listed⟩⟩
  · rintro ⟨lines, listing⟩
    obtain ⟨entries, decoded, listed⟩ := Image.listing_eq_ok_iff.mp listing
    obtain ⟨report, _, kept⟩ := Tally.exists_report listed
    exact ⟨report, Image.frequencies_eq_ok_iff.mpr ⟨entries, decoded, kept _ (.refl _)⟩⟩
  · intro report reported
    obtain ⟨entries, lines, decoded, listed, reported⟩ := Image.listed_of_frequencies reported
    obtain ⟨found, reports, kept⟩ := Tally.exists_report listed
    cases reported.symm.trans (kept _ (.refl _))
    exact ⟨entries, lines, decoded, Image.listing_eq_ok_iff.mpr ⟨entries, decoded, listed⟩, reports,
      fun other reports' => reports'.unique reports, kept⟩

/-- An instruction that occurs three times, one that occurs twice, and three that occur once and
come in the order of their bytes. -/
def repetitive : Image :=
  ⟨#[], [], ([.constant 1, .drop, .constant 1, .drop, .constant 2, .drop, .binary .sub, .stop].foldl
    CodeDraft.emit {}).code, 0⟩

/-- Code with an instruction three times and another one twice. The others occur once and are
ordered by their bytes. -/
theorem frequencies_report_listing_repetitive :
    repetitive.frequencies = .ok [⟨3, "DROP", 5, [0x18]⟩, ⟨2, "CONST\t1", 0, [0x10, 1, 0, 0, 0]⟩,
      ⟨1, "BINOP\t-", 18, [0x02]⟩, ⟨1, "CONST\t2", 12, [0x10, 2, 0, 0, 0]⟩,
      ⟨1, "<end>", 19, [0xFF]⟩] := by
  obtain ⟨succeeds, all⟩ := frequencies_report_listing repetitive
  have listing : repetitive.listing = .ok ["0x00000000:\tCONST\t1", "0x00000005:\tDROP",
      "0x00000006:\tCONST\t1", "0x0000000b:\tDROP", "0x0000000c:\tCONST\t2", "0x00000011:\tDROP",
      "0x00000012:\tBINOP\t-", "0x00000013:\t<end>"] := by decide +kernel
  have decoded : Listing.entries repetitive = .ok [⟨0, 5, .constant 1⟩, ⟨5, 1, .drop⟩,
      ⟨6, 5, .constant 1⟩, ⟨11, 1, .drop⟩, ⟨12, 5, .constant 2⟩, ⟨17, 1, .drop⟩,
      ⟨18, 1, .binary .sub⟩, ⟨19, 1, .stop⟩] := by decide +kernel
  obtain ⟨report, reported⟩ := succeeds.mpr ⟨_, listing⟩
  obtain ⟨entries, lines, decoded', listing', _, unique, _⟩ := all report reported
  cases decoded.symm.trans decoded'
  cases listing.symm.trans listing'
  rw [reported]
  refine congrArg _ (unique _ ⟨?_, ?_, ?_, ?_, ?_, ?_⟩).symm <;> decide +kernel

end BytecodeMachine
