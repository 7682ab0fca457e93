import BytecodeMachine.Proofs.Text.Utf8
/-!
# Decoding with replacement

Bytes that are no text are shown as one all the same. Reading goes from left to right. Where the
encoding of a character stands in front, the character is shown. Where none does, the longest
part in front that could have become a character is shown as U+FFFD; a byte that no encoding
begins with is such a part by itself.

`Shows` says this of encodings of characters and of their beginnings alone, without the table of
lead bytes that decoding goes by. The bytes show exactly one text, and decoding gives it.
-/
namespace BytecodeMachine.Utf8

/-- The encoding of some character begins with these bytes. -/
def Begins (part : List UInt8) : Prop := ∃ c, part <+: String.utf8EncodeChar c

/-- A part that is replaced, and the bytes behind it. No character stands in front, and the part is
as long as a beginning of a character can be there. -/
structure IllFormed (part behind : List UInt8) : Prop where
  noCharacter : ∀ c, ¬ String.utf8EncodeChar c <+: part ++ behind
  ne_nil : part ≠ []
  begins : 1 < part.length → Begins part
  longest : ∀ longer, longer <+: part ++ behind → part.length < longer.length → ¬ Begins longer

/-- Bytes are shown as these characters. -/
inductive Shows : List UInt8 → List Char → Prop
  | nil : Shows [] []
  | character {c : Char} {behind : List UInt8} {cs : List Char} (later : Shows behind cs) :
      Shows (String.utf8EncodeChar c ++ behind) (c :: cs)
  | replaced {part behind : List UInt8} {cs : List Char} (illFormed : IllFormed part behind)
      (later : Shows behind cs) : Shows (part ++ behind) ('\uFFFD' :: cs)

section Continuation

variable {lower upper : UInt8} {bits missing : Nat} {part bytes behind : List UInt8}

/-- Bytes that may stand behind a lead byte. The first of them has a range of its own. -/
def Continues (lower upper : UInt8) : List UInt8 → Prop
  | [] => True
  | b :: rest => (lower.toNat ≤ b.toNat ∧ b.toNat ≤ upper.toNat) ∧ ∀ d ∈ rest, Follows d

/-- Behind the second byte all bytes have the same range. -/
theorem continues_iff_follows : Continues 0x80 0xBF bytes ↔ ∀ b ∈ bytes, Follows b := by
  cases bytes with
  | nil => exact iff_of_true trivial (List.forall_mem_nil _)
  | cons b rest =>
    rw [List.forall_mem_cons]
    exact Iff.rfl

/-- What has come so far may have been continued, if all of it may. -/
theorem Continues.of_prefix (continues : Continues lower upper bytes) (front : part <+: bytes) :
    Continues lower upper part := by
  obtain ⟨behind, rfl⟩ := front
  cases part with
  | nil => trivial
  | cons b part =>
    obtain ⟨fits, follows⟩ := continues
    exact ⟨fits, fun d member => follows d (List.mem_append_left _ member)⟩

/-- Bytes are taken to their end and give a code point exactly if there are as many as are missing
and each is in its range. The induction is on the missing bytes; behind the first of them the range
is the common one, whatever it was before. -/
theorem exists_continuation_iff :
    (∃ point, continuation bits lower upper missing bytes = (some point, [])) ↔
      bytes.length = missing ∧ Continues lower upper bytes := by
  induction missing generalizing bits lower upper bytes with
  | zero =>
    simp only [continuation_zero_eq_some_iff]
    constructor
    · rintro ⟨_, _, rfl⟩
      exact ⟨rfl, trivial⟩
    · rintro ⟨empty, _⟩
      exact ⟨bits, rfl, List.length_eq_zero_iff.mp empty⟩
  | succ missing later =>
    simp only [continuation_succ_eq_some_iff]
    constructor
    · rintro ⟨point, b, rest, rfl, fits, goesOn⟩
      obtain ⟨length, continues⟩ := later.mp ⟨point, goesOn⟩
      exact ⟨congrArg Nat.succ length, fits, continues_iff_follows.mp continues⟩
    · rintro ⟨length, continues⟩
      obtain ⟨b, rest, rfl⟩ := List.exists_cons_of_length_eq_add_one length
      obtain ⟨fits, follows⟩ := continues
      obtain ⟨point, goesOn⟩ :=
        later.mpr ⟨Nat.succ.inj length, continues_iff_follows.mpr follows⟩
      exact ⟨point, b, rest, rfl, fits, goesOn⟩

/-- Where no code point comes out, fewer bytes have been taken than are missing. They are in their
ranges, and the next one, if there is one, is not. -/
theorem continuation_stops
    (stopped : continuation bits lower upper missing bytes = (none, behind)) :
    ∃ part, bytes = part ++ behind ∧ part.length < missing ∧ Continues lower upper part ∧
      ∀ b more, behind = b :: more → ¬ Continues lower upper (part ++ [b]) := by
  induction missing generalizing bits lower upper bytes with
  | zero =>
    rw [continuation] at stopped
    cases stopped
  | succ missing later =>
    cases bytes with
    | nil =>
      rw [continuation] at stopped
      cases stopped
      refine ⟨[], rfl, Nat.succ_pos _, trivial, ?_⟩
      intro b more none
      cases none
    | cons b rest =>
      rw [continuation] at stopped
      by_cases fits : lower ≤ b ∧ b ≤ upper
      · rw [if_pos fits] at stopped
        simp only [UInt8.le_iff_toNat_le] at fits
        obtain ⟨part, rfl, short, continues, last⟩ := later stopped
        refine ⟨b :: part, rfl, Nat.succ_lt_succ short,
          ⟨fits, continues_iff_follows.mp continues⟩, ?_⟩
        rintro d more rfl ⟨_, follows⟩
        exact last d more rfl (continues_iff_follows.mpr follows)
      · rw [if_neg fits] at stopped
        cases stopped
        simp only [UInt8.le_iff_toNat_le] at fits
        refine ⟨[], rfl, Nat.succ_pos _, trivial, ?_⟩
        rintro d more ⟨⟩ ⟨fits', _⟩
        exact fits fits'

end Continuation

section Leads

variable {a : UInt8} {lead : Lead} {part bytes behind rest : List UInt8} {point : Nat}

/-- A step over the bytes of a character and no more gives this character. -/
theorem next_of_sequence (sequence : Sequence (a :: bytes) point) :
    next a bytes = (some (Char.ofNat point), []) :=
  next_eq_some_iff.mpr ⟨bytes, point, sequence, rfl, (List.append_nil bytes).symm⟩

/-- A byte that is no lead byte begins no character. -/
theorem not_sequence_of_no_lead (high : ¬ a < 0x80) (missing : lead? a = none) :
    ¬ Sequence (a :: bytes) point := by
  intro sequence
  have taken := next_of_sequence sequence
  rw [next, if_neg high, missing] at taken
  cases taken

/-- Behind a lead byte stand as many bytes as it announces, and what may stand there. Both sides
say that a step takes all of the bytes and gives a character. -/
theorem exists_sequence_iff (high : ¬ a < 0x80) (leads : lead? a = some lead) :
    (∃ point, Sequence (a :: bytes) point) ↔
      bytes.length = lead.following ∧ Continues lead.lower lead.upper bytes := by
  have high : ¬ a.toNat < 0x80 := by rwa [UInt8.lt_iff_toNat_lt] at high
  rw [← exists_continuation_iff]
  constructor
  · rintro ⟨point, sequence⟩
    obtain ⟨found, goesOn, _⟩ :=
      (next_eq_some_iff_of_lead leads high).mp (next_of_sequence sequence)
    exact ⟨found, goesOn⟩
  · rintro ⟨point, goesOn⟩
    obtain ⟨_, found, sequence, _, rfl⟩ := next_eq_some_iff.mp
      ((next_eq_some_iff_of_lead leads high).mpr ⟨point, goesOn, rfl⟩)
    rw [List.append_nil]
    exact ⟨found, sequence⟩

/-- Encodings are sequences, so a beginning of the one is a beginning of the other. -/
theorem begins_iff : Begins part ↔ ∃ bytes point, Sequence bytes point ∧ part <+: bytes := by
  constructor
  · rintro ⟨c, front⟩
    exact ⟨_, _, sequence_encode c, front⟩
  · rintro ⟨bytes, point, sequence, front⟩
    refine ⟨Char.ofNat point, ?_⟩
    rwa [sequence.encode_eq]

/-- A byte that leads nothing begins no sequence, whatever follows it. -/
theorem not_begins_of_no_lead (high : ¬ a < 0x80) (missing : lead? a = none) :
    ¬ Begins (a :: part) := by
  rw [begins_iff]
  rintro ⟨_, point, sequence, behind, rfl⟩
  exact not_sequence_of_no_lead high missing sequence

/-- What can begin a character with this lead byte can be continued to one. -/
theorem continues_of_begins (high : ¬ a < 0x80) (leads : lead? a = some lead)
    (begins : Begins (a :: part)) : Continues lead.lower lead.upper part := by
  obtain ⟨_, point, sequence, behind, rfl⟩ := begins_iff.mp begins
  obtain ⟨_, continues⟩ := (exists_sequence_iff high leads).mp ⟨point, sequence⟩
  exact continues.of_prefix ⟨behind, rfl⟩

/-- Behind the second byte a sequence can be completed by any bytes that follow. The missing ones
are filled up with the least such byte, and the whole is a sequence of which the bytes at hand are
the beginning. -/
theorem begins_of_continues (high : ¬ a < 0x80) (leads : lead? a = some lead)
    (continues : Continues lead.lower lead.upper part) (some : part ≠ [])
    (short : part.length ≤ lead.following) : Begins (a :: part) := by
  obtain ⟨b, part, rfl⟩ := List.exists_cons_of_ne_nil some
  obtain ⟨fits, follows⟩ := continues
  let more : List UInt8 := List.replicate (lead.following - (b :: part).length) 0x80
  have length : (b :: part ++ more).length = lead.following := by
    rw [List.length_append, List.length_replicate]
    omega
  have completed : Continues lead.lower lead.upper (b :: part ++ more) := by
    refine ⟨fits, fun d member => ?_⟩
    rcases List.mem_append.mp member with before | added
    · exact follows d before
    · rw [List.eq_of_mem_replicate added]
      exact ⟨by decide, by decide⟩
  obtain ⟨point, sequence⟩ := (exists_sequence_iff high leads).mpr ⟨length, completed⟩
  exact begins_iff.mpr ⟨_, point, sequence, more, rfl⟩

/-- A part is ill-formed if whatever begins a character there is no longer, but each character
would be. -/
theorem IllFormed.of_longest (ne_nil : part ≠ []) (begins : 1 < part.length → Begins part)
    (longest : ∀ longer, longer <+: part ++ behind → part.length < longer.length → ¬ Begins longer)
    (short : ∀ c, String.utf8EncodeChar c <+: part ++ behind →
      part.length < (String.utf8EncodeChar c).length) : IllFormed part behind where
  noCharacter c front := longest _ front (short c front) ⟨c, List.prefix_refl _⟩
  ne_nil := ne_nil
  begins := begins
  longest := longest

/-- A byte that leads nothing is a part by itself. Nothing that begins with it begins a character,
so there is no longer part and no character either. -/
theorem illFormed_of_no_lead (high : ¬ a < 0x80) (missing : lead? a = none) :
    IllFormed [a] behind := by
  have never (longer : List UInt8) (front : longer <+: a :: behind) (some : longer ≠ []) :
      ¬ Begins longer := by
    obtain ⟨b, longer, rfl⟩ := List.exists_cons_of_ne_nil some
    obtain ⟨rfl, _⟩ := List.cons_prefix_cons.mp front
    exact not_begins_of_no_lead high missing
  refine .of_longest (List.cons_ne_nil _ _) (fun more => absurd more (Nat.lt_irrefl 1)) ?_ ?_
  · intro longer front more
    exact never longer front (List.ne_nil_of_length_pos (by omega))
  · intro c front
    refine absurd ⟨c, List.prefix_refl _⟩ (never _ front ?_)
    intro empty
    have sequence := sequence_encode c
    rw [empty] at sequence
    cases sequence

/-- The bytes that have been taken behind a lead byte when the next one does not fit are a part,
together with the lead byte. -/
theorem illFormed_of_lead (high : ¬ a < 0x80) (leads : lead? a = some lead)
    (continues : Continues lead.lower lead.upper part) (short : part.length < lead.following)
    (last : ∀ b more, behind = b :: more → ¬ Continues lead.lower lead.upper (part ++ [b])) :
    IllFormed (a :: part) behind := by
  refine .of_longest (List.cons_ne_nil _ _) ?_ ?_ ?_
  · intro more
    have some : part ≠ [] := List.ne_nil_of_length_pos (Nat.lt_of_succ_lt_succ more)
    exact begins_of_continues high leads continues some (Nat.le_of_lt short)
  · intro longer front more begins
    obtain ⟨b, longer, rfl⟩ := List.exists_cons_of_length_pos (Nat.zero_lt_of_lt more)
    obtain ⟨rfl, inner⟩ := List.cons_prefix_cons.mp front
    have more := Nat.lt_of_succ_lt_succ more
    -- what is longer has the next byte, which may not stand there
    obtain ⟨added, rfl⟩ : part <+: longer :=
      List.prefix_of_prefix_length_le (List.prefix_append part behind) inner (Nat.le_of_lt more)
    cases added with
    | nil => simp at more
    | cons d added =>
      obtain ⟨rest, rfl⟩ := (List.prefix_append_right_inj part).mp inner
      have continues := continues_of_begins high leads begins
      exact last d _ rfl (continues.of_prefix ⟨added, by simp⟩)
  · intro c front
    have sequence := sequence_encode c
    cases encoded : String.utf8EncodeChar c with
    | nil =>
      rw [encoded] at sequence
      cases sequence
    | cons b bytes =>
      rw [encoded] at sequence front
      obtain ⟨rfl, _⟩ := List.cons_prefix_cons.mp front
      obtain ⟨length, _⟩ := (exists_sequence_iff high leads).mp ⟨_, sequence⟩
      rw [List.length_cons, List.length_cons, length]
      omega

/-- A step that takes no character takes an ill-formed part. Either its first byte leads nothing
and is a part by itself, or the bytes that follow stop too early, and those read until then are the
part. -/
theorem exists_illFormed_of_next (stopped : next a rest = (none, behind)) :
    ∃ part, a :: rest = part ++ behind ∧ IllFormed part behind := by
  by_cases single : a < 0x80
  · rw [next, if_pos single] at stopped
    cases stopped
  rw [next, if_neg single] at stopped
  cases leads : lead? a with
  | none =>
    rw [leads] at stopped
    cases stopped
    exact ⟨[a], rfl, illFormed_of_no_lead single leads⟩
  | some lead =>
    rw [leads] at stopped
    dsimp only at stopped
    obtain ⟨unfinished, rfl⟩ := Prod.mk.inj stopped
    have stopped : continuation lead.bits lead.lower lead.upper lead.following rest =
        (none, (continuation lead.bits lead.lower lead.upper lead.following rest).2) :=
      Prod.ext (Option.map_eq_none_iff.mp unfinished) rfl
    obtain ⟨part, split, short, continues, last⟩ := continuation_stops stopped
    exact ⟨a :: part, congrArg (a :: ·) split,
      illFormed_of_lead single leads continues short last⟩

end Leads

variable {part part' behind behind' bytes : List UInt8} {cs : List Char}

/-- Of two ill-formed parts in front of the same bytes neither is longer: the longer one would be a
beginning of a character, which the shorter one rules out. -/
theorem IllFormed.length_le (illFormed : IllFormed part behind)
    (illFormed' : IllFormed part' behind') (same : part ++ behind = part' ++ behind') :
    part'.length ≤ part.length := by
  refine Nat.le_of_not_lt fun longer => ?_
  have some := List.length_pos_iff.mpr illFormed.ne_nil
  exact illFormed.longest part' ⟨behind', same.symm⟩ longer (illFormed'.begins (by omega))

/-- So they are the same. -/
theorem IllFormed.eq (illFormed : IllFormed part behind) (illFormed' : IllFormed part' behind')
    (same : part ++ behind = part' ++ behind') : part = part' ∧ behind = behind' :=
  List.append_inj same
    (Nat.le_antisymm (illFormed'.length_le illFormed same.symm)
      (illFormed.length_le illFormed' same))

/-- Bytes are shown as what decoding gives. Each step of it takes a character whose encoding stands
in front, or an ill-formed part. -/
theorem shows_decodeLossy (bytes : List UInt8) : Shows bytes (decodeLossy bytes) := by
  induction bytes using decodeLossy.induct with
  | case1 =>
    rw [decodeLossy]
    exact .nil
  | case2 b rest shorter later =>
    rw [decodeLossy]
    cases taken : (next b rest).1 with
    | none =>
      obtain ⟨part, split, illFormed⟩ := exists_illFormed_of_next (Prod.ext taken rfl)
      rw [split]
      exact .replaced illFormed later
    | some c =>
      obtain ⟨bytes, point, sequence, rfl, split⟩ := next_eq_some_iff.mp (Prod.ext taken rfl)
      have encoded : b :: rest =
          String.utf8EncodeChar (Char.ofNat point) ++ (next b rest).2 := by
        rw [sequence.encode_eq, List.cons_append, ← split]
      rw [encoded]
      exact .character later

/-- They are shown as nothing else: a step takes the character or the part that is shown. Proof:
induction on what is shown. The decoder takes a character where its encoding stands; where it stops
it has taken an ill-formed part, and of one input there is only one such part in front. -/
theorem Shows.decodeLossy_eq (shows : Shows bytes cs) : decodeLossy bytes = cs := by
  induction shows with
  | nil => rw [decodeLossy]
  | @character c behind cs _ later =>
    have sequence := sequence_encode c
    cases encoded : String.utf8EncodeChar c with
    | nil =>
      rw [encoded] at sequence
      cases sequence
    | cons b bytes =>
      rw [encoded] at sequence
      have taken : next b (bytes ++ behind) = (some c, behind) :=
        next_eq_some_iff.mpr ⟨bytes, _, sequence, Char.ofNat_toNat c, rfl⟩
      rw [List.cons_append, decodeLossy, taken, Option.getD_some, later]
  | @replaced part behind cs illFormed _ later =>
    obtain ⟨b, part, rfl⟩ := List.exists_cons_of_ne_nil illFormed.ne_nil
    rw [List.cons_append, decodeLossy]
    cases taken : (next b (part ++ behind)).1 with
    | some c =>
      obtain ⟨bytes, point, sequence, rfl, split⟩ := next_eq_some_iff.mp (Prod.ext taken rfl)
      refine absurd ?_ (illFormed.noCharacter (Char.ofNat point))
      rw [sequence.encode_eq, List.cons_append, split]
      exact List.prefix_append (b :: bytes) _
    | none =>
      have stopped : next b (part ++ behind) = (none, (next b (part ++ behind)).2) :=
        Prod.ext taken rfl
      obtain ⟨part', split, illFormed'⟩ := exists_illFormed_of_next stopped
      obtain ⟨_, same⟩ := illFormed.eq illFormed' split
      rw [← same, later, Option.getD_none]

/-- Bytes show exactly one text, which decoding with replacement gives. -/
theorem shows_iff : Shows bytes cs ↔ decodeLossy bytes = cs := by
  constructor
  · exact Shows.decodeLossy_eq
  · rintro rfl
    exact shows_decodeLossy bytes

end BytecodeMachine.Utf8
