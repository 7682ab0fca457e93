import BytecodeMachine.Text.Utf8
/-!
# Decoding is the inverse of encoding

A text has one encoding in UTF-8, character by character. Strict decoding gives a text exactly
for the bytes of its encoding, and refuses all others. The sequences of one character stand in
between: their bytes and their code point, by the number of bytes.
-/
namespace BytecodeMachine.Utf8

/-- A byte that continues a sequence. -/
def Follows (b : UInt8) : Prop := 0x80 ≤ b.toNat ∧ b.toNat ≤ 0xBF

/-- The bytes of one character and its code point. The second byte is bounded where the lead byte
alone does not exclude overlong forms, surrogates and code points that are too large. -/
inductive Sequence : List UInt8 → Nat → Prop
  | one {a : UInt8} (single : a.toNat < 0x80) : Sequence [a] a.toNat
  | two {a b : UInt8} (leads : 0xC2 ≤ a.toNat ∧ a.toNat < 0xE0) (second : Follows b) :
      Sequence [a, b] ((a.toNat - 0xC0) * 64 + (b.toNat - 0x80))
  | three {a b c : UInt8} (leads : 0xE0 ≤ a.toNat ∧ a.toNat < 0xF0) (second : Follows b)
      (short : a.toNat = 0xE0 → 0xA0 ≤ b.toNat) (scalar : a.toNat = 0xED → b.toNat < 0xA0)
      (third : Follows c) :
      Sequence [a, b, c]
        (((a.toNat - 0xE0) * 64 + (b.toNat - 0x80)) * 64 + (c.toNat - 0x80))
  | four {a b c d : UInt8} (leads : 0xF0 ≤ a.toNat ∧ a.toNat < 0xF5) (second : Follows b)
      (short : a.toNat = 0xF0 → 0x90 ≤ b.toNat) (inside : a.toNat = 0xF4 → b.toNat < 0x90)
      (third : Follows c) (fourth : Follows d) :
      Sequence [a, b, c, d]
        ((((a.toNat - 0xF0) * 64 + (b.toNat - 0x80)) * 64 + (c.toNat - 0x80)) * 64 +
          (d.toNat - 0x80))

section Encoding

variable {point : Nat} {bytes : List UInt8}

/-- A point that is a character is the number of that character; others would be replaced by
zero. -/
theorem toNat_ofNat (valid : point.isValidChar) : (Char.ofNat point).val.toNat = point := by
  rw [Char.ofNat, dif_pos valid]
  rfl

/-- A byte is known by its number. -/
theorem ofNat_eq_of_toNat {n : Nat} {b : UInt8} (same : n = b.toNat) : UInt8.ofNat n = b := by
  rw [same, UInt8.ofNat_toNat]

/-- What a sequence spells is a character. The bounds on the second byte are made for this: they
leave out the surrogates and what lies above the last point. -/
theorem Sequence.isValidChar (sequence : Sequence bytes point) : point.isValidChar := by
  cases sequence with
  | one single => exact .inl (by omega)
  | two leads second =>
    unfold Follows at second
    exact .inl (by omega)
  | three leads second short scalar third =>
    unfold Follows at second third
    unfold Nat.isValidChar
    omega
  | four leads second short inside third fourth =>
    unfold Follows at second third fourth
    exact .inr ⟨by omega, by omega⟩

/-- The bytes of a code point are its encoding. The length of the sequence says in which range the
point lies, and in each range the bytes are had back by arithmetic. -/
theorem Sequence.encode_eq (sequence : Sequence bytes point) :
    String.utf8EncodeChar (Char.ofNat point) = bytes := by
  simp only [String.utf8EncodeChar, toNat_ofNat sequence.isValidChar]
  cases sequence with
  | one single => rw [if_pos (by omega), UInt8.ofNat_toNat]
  | two leads second =>
    unfold Follows at second
    rw [if_neg (by omega), if_pos (by omega)]
    simp only [List.cons.injEq, and_true]
    exact ⟨ofNat_eq_of_toNat (by omega), ofNat_eq_of_toNat (by omega)⟩
  | three leads second short scalar third =>
    unfold Follows at second third
    rw [if_neg (by omega), if_neg (by omega), if_pos (by omega)]
    simp only [List.cons.injEq, and_true]
    exact ⟨ofNat_eq_of_toNat (by omega), ofNat_eq_of_toNat (by omega),
      ofNat_eq_of_toNat (by omega)⟩
  | four leads second short inside third fourth =>
    unfold Follows at second third fourth
    rw [if_neg (by omega), if_neg (by omega), if_neg (by omega)]
    simp only [List.cons.injEq, and_true]
    exact ⟨ofNat_eq_of_toNat (by omega), ofNat_eq_of_toNat (by omega),
      ofNat_eq_of_toNat (by omega), ofNat_eq_of_toNat (by omega)⟩

/-- A number below 256 is the number of its byte. -/
theorem toNat_byte {n : Nat} (small : n < 256) : (UInt8.ofNat n).toNat = n :=
  UInt8.toNat_ofNat_of_lt' small

/-- The encoding of a character is a sequence with its code point. Proof: by the four ranges of the
encoding. In each one the bytes are in their bounds, and their bits put together are the point. -/
theorem sequence_encode (c : Char) : Sequence (String.utf8EncodeChar c) c.toNat := by
  have valid : c.val.toNat < 55296 ∨ 57343 < c.val.toNat ∧ c.val.toNat < 1114112 := c.valid
  unfold Char.toNat
  simp only [String.utf8EncodeChar]
  generalize c.val.toNat = v at valid ⊢
  have low := toNat_byte (n := v % 64 + 128) (by omega)
  by_cases single : v ≤ 127
  · have a := toNat_byte (n := v) (by omega)
    have sequence := Sequence.one (a := UInt8.ofNat v) (by omega)
    rw [if_pos single]
    rwa [a] at sequence
  by_cases double : v ≤ 2047
  · have a := toNat_byte (n := v / 64 % 32 + 192) (by omega)
    have sequence := Sequence.two (a := UInt8.ofNat (v / 64 % 32 + 192))
      (b := UInt8.ofNat (v % 64 + 128)) (by omega) (by unfold Follows; omega)
    have whole : v = (v / 64 % 32 + 192 - 0xC0) * 64 + (v % 64 + 128 - 0x80) := by omega
    rw [if_neg single, if_pos double]
    rwa [a, low, ← whole] at sequence
  have middle := toNat_byte (n := v / 64 % 64 + 128) (by omega)
  by_cases triple : v ≤ 65535
  · have a := toNat_byte (n := v / 4096 % 16 + 224) (by omega)
    have sequence := Sequence.three (a := UInt8.ofNat (v / 4096 % 16 + 224))
      (b := UInt8.ofNat (v / 64 % 64 + 128)) (c := UInt8.ofNat (v % 64 + 128)) (by omega)
      (by unfold Follows; omega) (by omega) (by omega) (by unfold Follows; omega)
    have whole : v = ((v / 4096 % 16 + 224 - 0xE0) * 64 + (v / 64 % 64 + 128 - 0x80)) * 64 +
        (v % 64 + 128 - 0x80) := by omega
    rw [if_neg single, if_neg double, if_pos triple]
    rwa [a, middle, low, ← whole] at sequence
  · have a := toNat_byte (n := v / 262144 % 8 + 240) (by omega)
    have b := toNat_byte (n := v / 4096 % 64 + 128) (by omega)
    have sequence := Sequence.four (a := UInt8.ofNat (v / 262144 % 8 + 240))
      (b := UInt8.ofNat (v / 4096 % 64 + 128)) (c := UInt8.ofNat (v / 64 % 64 + 128))
      (d := UInt8.ofNat (v % 64 + 128)) (by omega) (by unfold Follows; omega) (by omega)
      (by omega) (by unfold Follows; omega) (by unfold Follows; omega)
    have whole : v = (((v / 262144 % 8 + 240 - 0xF0) * 64 + (v / 4096 % 64 + 128 - 0x80)) * 64 +
        (v / 64 % 64 + 128 - 0x80)) * 64 + (v % 64 + 128 - 0x80) := by omega
    rw [if_neg single, if_neg double, if_neg triple]
    rwa [a, b, middle, low, ← whole] at sequence

end Encoding

section Stepping

variable {a : UInt8} {c : Char} {point : Nat} {bytes rest behind : List UInt8}

/-- The announcements of the lead bytes, by number. The rows are the same as in the table; only the
comparisons are those of numbers, which arithmetic can work with. -/
theorem lead?_eq (b : UInt8) :
    lead? b =
      if b.toNat < 0xC2 then none
      else if b.toNat < 0xE0 then some ⟨b.toNat - 0xC0, 0x80, 0xBF, 1⟩
      else if b.toNat = 0xE0 then some ⟨0, 0xA0, 0xBF, 2⟩
      else if b.toNat = 0xED then some ⟨0xD, 0x80, 0x9F, 2⟩
      else if b.toNat < 0xF0 then some ⟨b.toNat - 0xE0, 0x80, 0xBF, 2⟩
      else if b.toNat = 0xF0 then some ⟨0, 0x90, 0xBF, 3⟩
      else if b.toNat < 0xF4 then some ⟨b.toNat - 0xF0, 0x80, 0xBF, 3⟩
      else if b.toNat = 0xF4 then some ⟨4, 0x80, 0x8F, 3⟩
      else none := by
  simp only [lead?, UInt8.lt_iff_toNat_lt, ← UInt8.toNat_inj]
  rfl

/-- Bytes that follow, those that could only spell a point the long way and those beyond the last
point lead nothing. -/
theorem lead?_none (outside : a.toNat < 0xC2 ∨ 0xF5 ≤ a.toNat) : lead? a = none := by
  rw [lead?_eq]
  obtain low | high := outside
  · rw [if_pos low]
  · repeat rw [if_neg (by omega)]

/-- Two bytes are led by a byte that any following byte may follow. -/
theorem lead?_two (leads : 0xC2 ≤ a.toNat ∧ a.toNat < 0xE0) :
    lead? a = some ⟨a.toNat - 0xC0, 0x80, 0xBF, 1⟩ := by
  rw [lead?_eq, if_neg (by omega), if_pos leads.2]

/-- Three bytes: the bounds that the decoder sets on the second byte say the same as the form does,
which leaves out the long spellings under 0xE0 and the surrogates under 0xED. -/
theorem lead?_three (leads : 0xE0 ≤ a.toNat ∧ a.toNat < 0xF0) :
    ∃ lower upper, lead? a = some ⟨a.toNat - 0xE0, lower, upper, 2⟩ ∧
      ∀ b : UInt8, lower.toNat ≤ b.toNat ∧ b.toNat ≤ upper.toNat ↔
        Follows b ∧ (a.toNat = 0xE0 → 0xA0 ≤ b.toNat) ∧ (a.toNat = 0xED → b.toNat < 0xA0) := by
  unfold Follows
  rw [lead?_eq, if_neg (by omega), if_neg (by omega)]
  by_cases least : a.toNat = 0xE0
  · rw [if_pos least, least]
    refine ⟨0xA0, 0xBF, rfl, fun b => ?_⟩
    simp
    omega
  by_cases surrogate : a.toNat = 0xED
  · rw [if_neg least, if_pos surrogate, surrogate]
    refine ⟨0x80, 0x9F, rfl, fun b => ?_⟩
    simp
    omega
  · rw [if_neg least, if_neg surrogate, if_pos leads.2]
    refine ⟨0x80, 0xBF, rfl, fun b => ?_⟩
    simp [least, surrogate]

/-- Four bytes: here the bounds leave out the long spellings under 0xF0 and what lies above the
last point under 0xF4. -/
theorem lead?_four (leads : 0xF0 ≤ a.toNat ∧ a.toNat < 0xF5) :
    ∃ lower upper, lead? a = some ⟨a.toNat - 0xF0, lower, upper, 3⟩ ∧
      ∀ b : UInt8, lower.toNat ≤ b.toNat ∧ b.toNat ≤ upper.toNat ↔
        Follows b ∧ (a.toNat = 0xF0 → 0x90 ≤ b.toNat) ∧ (a.toNat = 0xF4 → b.toNat < 0x90) := by
  unfold Follows
  rw [lead?_eq, if_neg (by omega), if_neg (by omega), if_neg (by omega), if_neg (by omega),
    if_neg (by omega)]
  by_cases least : a.toNat = 0xF0
  · rw [if_pos least, least]
    refine ⟨0x90, 0xBF, rfl, fun b => ?_⟩
    simp
    omega
  by_cases inside : a.toNat < 0xF4
  · rw [if_neg least, if_pos inside]
    refine ⟨0x80, 0xBF, rfl, fun b => ?_⟩
    simp [least]
    omega
  · have greatest : a.toNat = 0xF4 := by omega
    rw [if_neg least, if_neg inside, if_pos greatest, greatest]
    refine ⟨0x80, 0x8F, rfl, fun b => ?_⟩
    simp
    omega

/-- With no byte missing the point is complete and no input is taken. -/
theorem continuation_zero_eq_some_iff {bits : Nat} {lower upper : UInt8} :
    continuation bits lower upper 0 bytes = (some point, rest) ↔ bits = point ∧ bytes = rest := by
  simp [continuation]

/-- With a byte missing the input has to begin with one in bounds, whose six bits go behind those
collected. From then on the bounds are those of any following byte. -/
theorem continuation_succ_eq_some_iff {bits missing : Nat} {lower upper : UInt8} :
    continuation bits lower upper (missing + 1) bytes = (some point, rest) ↔
      ∃ b more, bytes = b :: more ∧ (lower.toNat ≤ b.toNat ∧ b.toNat ≤ upper.toNat) ∧
        continuation (bits * 64 + (b.toNat - 0x80)) 0x80 0xBF missing more = (some point, rest) := by
  cases bytes with
  | nil => simp [continuation]
  | cons b more =>
    simp only [continuation, UInt8.le_iff_toNat_le]
    by_cases fits : lower.toNat ≤ b.toNat ∧ b.toNat ≤ upper.toNat
    · rw [if_pos fits]
      constructor
      · exact fun goesOn => ⟨b, more, rfl, fits, goesOn⟩
      · rintro ⟨_, _, ⟨⟩, _, goesOn⟩
        exact goesOn
    · rw [if_neg fits]
      constructor
      · rintro ⟨⟩
      · rintro ⟨_, _, ⟨⟩, fits', _⟩
        exact absurd fits' fits

/-- Behind a leading byte the decoder shows a character exactly if the bytes that follow complete
its point. A point completed is a character, so the replacement is never taken for one. -/
theorem next_eq_some_iff_of_lead {lead : Lead} (leads : lead? a = some lead)
    (high : ¬ a.toNat < 0x80) :
    next a rest = (some c, behind) ↔
      ∃ point, continuation lead.bits lead.lower lead.upper lead.following rest =
        (some point, behind) ∧ Char.ofNat point = c := by
  have high : ¬ a < 0x80 := by rwa [UInt8.lt_iff_toNat_lt]
  simp only [next, if_neg high, leads]
  obtain ⟨_ | found, left⟩ :=
    continuation lead.bits lead.lower lead.upper lead.following rest
  · simp
  · simp only [Option.map_some, Prod.mk.injEq, Option.some.injEq]
    constructor
    · rintro ⟨rfl, rfl⟩
      exact ⟨found, ⟨rfl, rfl⟩, rfl⟩
    · rintro ⟨_, ⟨rfl, rfl⟩, rfl⟩
      exact ⟨rfl, rfl⟩

/-- A step takes a character exactly if its sequence stands in front. Proof: by the first byte,
which decides the length in both directions. The bounds on the second byte are by the lemmas on
leading bytes those of the sequence, and the other bytes follow one by one. -/
theorem next_eq_some_iff :
    next a rest = (some c, behind) ↔
      ∃ bytes point, Sequence (a :: bytes) point ∧ Char.ofNat point = c ∧
        rest = bytes ++ behind := by
  constructor
  · intro taken
    by_cases single : a.toNat < 0x80
    · rw [next, if_pos (by rwa [UInt8.lt_iff_toNat_lt])] at taken
      cases taken
      exact ⟨[], _, .one single, rfl, rfl⟩
    have high : ¬ a < 0x80 := by rwa [UInt8.lt_iff_toNat_lt]
    by_cases outside : a.toNat < 0xC2 ∨ 0xF5 ≤ a.toNat
    · rw [next, if_neg high, lead?_none outside] at taken
      cases taken
    by_cases double : a.toNat < 0xE0
    · have leads : 0xC2 ≤ a.toNat ∧ a.toNat < 0xE0 := by omega
      rw [next_eq_some_iff_of_lead (lead?_two leads) single] at taken
      simp only [continuation_succ_eq_some_iff, continuation_zero_eq_some_iff] at taken
      obtain ⟨_, ⟨b, _, rfl, second, rfl, rfl⟩, rfl⟩ := taken
      exact ⟨[b], _, .two leads second, rfl, rfl⟩
    by_cases triple : a.toNat < 0xF0
    · have leads : 0xE0 ≤ a.toNat ∧ a.toNat < 0xF0 := by omega
      obtain ⟨lower, upper, leads', bounds⟩ := lead?_three leads
      rw [next_eq_some_iff_of_lead leads' single] at taken
      simp only [continuation_succ_eq_some_iff, continuation_zero_eq_some_iff, bounds] at taken
      obtain ⟨_, ⟨b, _, rfl, ⟨second, short, scalar⟩, c, _, rfl, third, rfl, rfl⟩, rfl⟩ := taken
      exact ⟨[b, c], _, .three leads second short scalar third, rfl, rfl⟩
    · have leads : 0xF0 ≤ a.toNat ∧ a.toNat < 0xF5 := by omega
      obtain ⟨lower, upper, leads', bounds⟩ := lead?_four leads
      rw [next_eq_some_iff_of_lead leads' single] at taken
      simp only [continuation_succ_eq_some_iff, continuation_zero_eq_some_iff, bounds] at taken
      obtain ⟨_, ⟨b, _, rfl, ⟨second, short, inside⟩, c, _, rfl, third, d, _, rfl, fourth, rfl,
        rfl⟩, rfl⟩ := taken
      exact ⟨[b, c, d], _, .four leads second short inside third fourth, rfl, rfl⟩
  · rintro ⟨bytes, point, sequence, rfl, rfl⟩
    cases sequence with
    | one single =>
      rw [next, if_pos (by rwa [UInt8.lt_iff_toNat_lt])]
      rfl
    | two leads second =>
      rw [next_eq_some_iff_of_lead (lead?_two leads) (by omega)]
      simp only [continuation_succ_eq_some_iff, continuation_zero_eq_some_iff]
      exact ⟨_, ⟨_, _, rfl, second, rfl, rfl⟩, rfl⟩
    | three leads second short scalar third =>
      obtain ⟨lower, upper, leads', bounds⟩ := lead?_three leads
      rw [next_eq_some_iff_of_lead leads' (by omega)]
      simp only [continuation_succ_eq_some_iff, continuation_zero_eq_some_iff, bounds]
      exact ⟨_, ⟨_, _, rfl, ⟨second, short, scalar⟩, _, _, rfl, third, rfl, rfl⟩, rfl⟩
    | four leads second short inside third fourth =>
      obtain ⟨lower, upper, leads', bounds⟩ := lead?_four leads
      rw [next_eq_some_iff_of_lead leads' (by omega)]
      simp only [continuation_succ_eq_some_iff, continuation_zero_eq_some_iff, bounds]
      exact ⟨_, ⟨_, _, rfl, ⟨second, short, inside⟩, _, _, rfl, third, _, _, rfl, fourth, rfl, rfl⟩,
        rfl⟩

end Stepping

variable {bytes : List UInt8} {cs : List Char}

/-- Bytes that decode are the encoding of what they decode to, by induction along the decoder: each
step takes one sequence, which is the encoding of its character. -/
theorem encode_of_decode? (decoded : decode? bytes = some cs) :
    cs.flatMap String.utf8EncodeChar = bytes := by
  induction bytes using decode?.induct generalizing cs with
  | case1 =>
    rw [decode?] at decoded
    cases decoded
    rfl
  | case2 b rest shorter ill =>
    rw [decode?, ill] at decoded
    cases decoded
  | case3 b rest shorter c found later =>
    rw [decode?, found] at decoded
    obtain ⟨ds, behind, rfl⟩ := Option.map_eq_some_iff.mp decoded
    obtain ⟨sent, point, sequence, rfl, split⟩ := next_eq_some_iff.mp (Prod.ext found rfl)
    rw [List.flatMap_cons, later behind, sequence.encode_eq, List.cons_append, ← split]

/-- Encoded characters decode to themselves. The first sequence is recognized for what it is,
whatever follows it, and the rest goes by induction. -/
theorem decode?_encode (cs : List Char) :
    decode? (cs.flatMap String.utf8EncodeChar) = some cs := by
  induction cs with
  | nil => rw [List.flatMap_nil, decode?]
  | cons c cs later =>
    have sequence := sequence_encode c
    rw [List.flatMap_cons]
    -- the encoding of a character is not empty
    cases sent : String.utf8EncodeChar c with
    | nil =>
      rw [sent] at sequence
      cases sequence
    | cons b more =>
      rw [sent] at sequence
      have step : next b (more ++ cs.flatMap String.utf8EncodeChar) =
          (some c, cs.flatMap String.utf8EncodeChar) :=
        next_eq_some_iff.mpr ⟨more, _, sequence, Char.ofNat_toNat c, rfl⟩
      rw [List.cons_append, decode?, step]
      dsimp only
      rw [later]
      rfl

/-- Strict decoding gives a text for the bytes of its encoding and for no others. -/
theorem decode?_eq_some_iff : decode? bytes = some cs ↔ cs.flatMap String.utf8EncodeChar = bytes :=
  ⟨encode_of_decode?, by rintro rfl; exact decode?_encode cs⟩

/-- Where nothing is ill-formed, nothing is replaced. Proof: induction along the steps of the
strict decoding, all of which give a character. -/
theorem decodeLossy_of_decode? (decoded : decode? bytes = some cs) : decodeLossy bytes = cs := by
  induction bytes using decode?.induct generalizing cs with
  | case1 =>
    rw [decode?] at decoded
    cases decoded
    rw [decodeLossy]
  | case2 b rest shorter ill =>
    rw [decode?, ill] at decoded
    cases decoded
  | case3 b rest shorter c found later =>
    rw [decode?, found] at decoded
    obtain ⟨ds, behind, rfl⟩ := Option.map_eq_some_iff.mp decoded
    rw [decodeLossy, found, later behind, Option.getD_some]

section Texts

/-- The bytes of a string are the encodings of its characters in a row. -/
theorem toUTF8_ofList (cs : List Char) :
    (String.ofList cs).toUTF8.data.toList = cs.flatMap String.utf8EncodeChar := by
  rw [String.toUTF8_eq_toByteArray, String.toByteArray_ofList, List.utf8Encode,
    List.toList_data_toByteArray]

/-- A text is what its bytes are shown as. -/
theorem text_toUTF8 (shown : String) : text shown.toUTF8.data.toList = shown := by
  obtain ⟨cs, rfl⟩ : ∃ cs, shown = String.ofList cs := ⟨shown.toList, String.ofList_toList.symm⟩
  rw [toUTF8_ofList, text, decodeLossy_of_decode? (decode?_encode cs)]

/-- Texts with the same bytes are the same. -/
theorem toUTF8_inj {shown other : String} (same : shown.toUTF8.data = other.toUTF8.data) :
    shown = other := by
  rw [← text_toUTF8 shown, ← text_toUTF8 other, same]

/-- Bytes below 128 are the encoding of the characters with these code points. Proof: induction on
the bytes, each of which is a sequence by itself. -/
theorem toUTF8_single (single : ∀ b ∈ bytes, b.toNat < 0x80) :
    (String.ofList (bytes.map fun b => Char.ofNat b.toNat)).toUTF8.data.toList = bytes := by
  rw [toUTF8_ofList]
  induction bytes with
  | nil => rfl
  | cons b rest later =>
    obtain ⟨first, others⟩ := List.forall_mem_cons.mp single
    rw [List.map_cons, List.flatMap_cons, (Sequence.one first).encode_eq, later others,
      List.singleton_append]

end Texts

end BytecodeMachine.Utf8
