import BytecodeMachine.Proofs.Image.Detection
/-!
# Files that are cut off

The header of a sized file accounts for all of it, so a file that is cut off is not detected as
sized any more, and is read as a classic one. There the size of the code is in the place of the
number of symbols, and the number of symbols is where the first of them stands. So what is left
is rejected exactly if that many symbols and the string table do not end inside it, or if one
of the symbols is malformed.

If there is enough code for the symbols, they never do end inside it. A short program can be cut
off unnoticed.
-/
namespace BytecodeMachine.Image

variable {file bytes : List UInt8} {image : Image} {count cut : Nat}

/-- None of this many numbers one behind another is negative. -/
def NoneNegative (count : Nat) (bytes : List UInt8) : Prop :=
  ∀ position < count, ∀ number : Int32,
    LittleEndian.encode number <+: bytes.drop (4 * position) → 0 ≤ number

/-- The numbers are read four bytes at a time: the first one, and then the others from behind
it. -/
theorem noneNegative_cons {b₀ b₁ b₂ b₃ : UInt8} {rest : List UInt8} :
    NoneNegative (count + 1) (b₀ :: b₁ :: b₂ :: b₃ :: rest) ↔
      0 ≤ LittleEndian.decode b₀ b₁ b₂ b₃ ∧ NoneNegative count rest := by
  have behind (position : Nat) : (b₀ :: b₁ :: b₂ :: b₃ :: rest).drop (4 * (position + 1)) =
      rest.drop (4 * position) := rfl
  constructor
  · intro none
    constructor
    · apply none 0 (Nat.succ_pos count)
      rw [LittleEndian.encode_decode]
      exact List.prefix_append [b₀, b₁, b₂, b₃] rest
    · intro position inside number stands
      rw [← behind] at stands
      exact none (position + 1) (Nat.succ_lt_succ inside) number stands
  · rintro ⟨first, others⟩ position inside number stands
    cases position with
    | zero =>
      have form := (prefix_append_iff_eq [b₀, b₁, b₂, b₃] rest
        (LittleEndian.length_encode number)).mp stands
      rwa [← LittleEndian.decode_eq_iff.mpr form]
    | succ position =>
      rw [behind] at stands
      exact others position (Nat.lt_of_succ_lt_succ inside) number stands

/-- Bytes behind the last of the numbers may be cut off. -/
theorem noneNegative_take (enough : 4 * count ≤ cut) :
    NoneNegative count (bytes.take cut) ↔ NoneNegative count bytes := by
  refine forall_congr' fun position => forall_congr' fun inside => forall_congr' fun number => ?_
  rw [List.drop_take, List.prefix_take_iff, LittleEndian.length_encode]
  have room : 4 ≤ cut - 4 * position := by omega
  rw [and_iff_left room]

/-- With enough bytes, symbols can be read if none of their numbers is negative. Proof: induction
on the symbols, two numbers for each. -/
theorem exists_readPublics_iff (long : count * 8 ≤ bytes.length) :
    (∃ symbols, readPublics count bytes = .ok symbols) ↔ NoneNegative (2 * count) bytes := by
  induction count generalizing bytes with
  | zero => simp [readPublics, NoneNegative]
  | succ count later =>
    obtain ⟨a₀, a₁, a₂, a₃, b₀, b₁, b₂, b₃, rest, rfl⟩ :=
      exists_eight (by omega : 8 ≤ bytes.length)
    simp only [List.length_cons] at long
    rw [Nat.mul_succ, noneNegative_cons, noneNegative_cons, ← later (by omega)]
    simp only [readPublics]
    split
    · next negative =>
      refine iff_of_false (by simp) ?_
      rintro ⟨name, offset, _⟩
      obtain below | below := negative
      · exact Int32.not_lt.mpr name below
      · exact Int32.not_lt.mpr offset below
    · next positive =>
      rw [not_or, Int32.not_lt, Int32.not_lt] at positive
      rw [← and_assoc, and_iff_right positive]
      cases readPublics count rest <;> simp

/-- What is behind a header is split if both tables end inside the file and no number in the first
one is negative. -/
theorem exists_splitTables_iff {header publics strings : Nat} :
    (∃ tables, splitTables file header publics strings = .ok tables) ↔
      header + publics * 8 + strings ≤ file.length ∧
        NoneNegative (2 * publics) (file.drop header) := by
  by_cases long : header + publics * 8 + strings ≤ file.length
  · have enough : publics * 8 ≤ (file.drop header).length := by
      rw [List.length_drop]
      omega
    rw [and_iff_right long, ← exists_readPublics_iff enough]
    simp only [splitTables_of_long long]
    constructor
    · rintro ⟨tables, read, _⟩
      exact ⟨tables.publics, read⟩
    · rintro ⟨symbols, read⟩
      exact ⟨⟨symbols, _, _⟩, read, rfl, rfl⟩
  · refine iff_of_false ?_ fun both => long both.1
    rintro ⟨tables, done⟩
    exact long (length_of_splitTables done)

/-- A size in the header is read from what is left if it is all there. -/
theorem headerSize_take {position size : Nat} {field : HeaderField} (fits : size < 2147483648)
    (stands : encodeSize size <+: file.drop (4 * position)) (left : 4 * position + 4 ≤ cut) :
    headerSize (file.take cut) position field = .ok size := by
  rw [headerSize_eq_ok_iff, List.drop_take, List.prefix_take_iff, length_encodeSize]
  exact ⟨fits, stands, by omega⟩

section Cut

variable (bounded : image.Bounded) (codeFits : image.code.size < 2147483648)
  (shorter : cut < (image.encode .sized).length)
include bounded codeFits shorter

/-- What is left of a sized file is read as a classic one whose symbols are as many as the code
has bytes. -/
theorem exists_parseClassic_cut_iff :
    (∃ other, parseClassic ((image.encode .sized).take cut) = .ok other) ↔
      12 + 8 * image.code.size + image.strings.size ≤ cut ∧
        NoneNegative (2 * image.code.size) ((image.encode .sized).drop 12) := by
  obtain ⟨stringsAt, globalsAt, codeAt, _⟩ :=
    encodeHeader_sized_prefix_iff.mp (image.encodeHeader_prefix .sized)
  have left : ((image.encode .sized).take cut).length = cut :=
    List.length_take_of_le (Nat.le_of_lt shorter)
  by_cases header : 12 ≤ cut
  · have strings : headerSize ((image.encode .sized).take cut) 0 .strings =
        .ok image.strings.size := headerSize_take bounded.strings stringsAt (by omega)
    have globals : headerSize ((image.encode .sized).take cut) 1 .globals =
        .ok image.globals := headerSize_take bounded.globals globalsAt (by omega)
    have publics : headerSize ((image.encode .sized).take cut) 2 .publics =
        .ok image.code.size := headerSize_take codeFits codeAt (by omega)
    have tables : (∃ other, parseClassic ((image.encode .sized).take cut) = .ok other) ↔
        ∃ tables, splitTables ((image.encode .sized).take cut) 12 image.code.size
          image.strings.size = .ok tables := by
      simp only [parseClassic, Answer.bind_eq_ok_iff, strings, globals, publics,
        Except.ok.injEq, exists_eq_left']
      constructor
      · rintro ⟨other, tables, split, _⟩
        exact ⟨tables, split⟩
      · rintro ⟨tables, split⟩
        exact ⟨_, tables, split, rfl⟩
    rw [tables, exists_splitTables_iff, left, Nat.mul_comm image.code.size 8]
    refine and_congr_right fun long => ?_
    rw [List.drop_take, noneNegative_take (by omega)]
  · refine iff_of_false ?_ fun both => header (by omega)
    rintro ⟨other, parsed⟩
    have length := congrArg List.length (parseClassic_eq_ok_iff.mp parsed).2
    rw [left, length_encode_classic] at length
    omega

/-- The header does not account for what is left. Whatever can still be read of it says what it
said of the whole file, whose length is greater. -/
theorem isSized_cut : isSized ((image.encode .sized).take cut) = false := by
  obtain ⟨stringsAt, _, codeAt, publicsAt⟩ :=
    encodeHeader_sized_prefix_iff.mp (image.encodeHeader_prefix .sized)
  have number {position size : Nat} {found : Int32}
      (stands : encodeSize size <+: (image.encode .sized).drop (4 * position))
      (read : headerNumber? ((image.encode .sized).take cut) position = some found) :
      found = Int32.ofNat size := by
    rw [headerNumber?_eq_some_iff, List.drop_take, List.prefix_take_iff,
      ← headerNumber?_eq_some_iff, headerNumber?_of_size stands] at read
    exact (Option.some.inj read.1).symm
  rw [Bool.eq_false_iff, ne_eq, isSized_iff]
  rintro ⟨strings, globals, code, publics, ⟨first, _, third, fourth⟩, _, accounts⟩
  rw [number stringsAt first, number codeAt third, number publicsAt fourth,
    toNat_ofNat bounded.strings, toNat_ofNat codeFits, toNat_ofNat bounded.publics,
    List.length_take_of_le (Nat.le_of_lt shorter)] at accounts
  rw [length_encode_sized] at shorter
  omega

end Cut

/-- If there is a negative one it stands at some position. Four bytes are always the encoding of a
number, so the two ways of saying it do not differ. -/
theorem not_noneNegative_iff :
    ¬ NoneNegative count bytes ↔ ∃ position < count, ∃ number : Int32, number < 0 ∧
      LittleEndian.encode number <+: bytes.drop (4 * position) := by
  simp only [NoneNegative, Classical.not_forall, Int32.not_le, exists_prop]
  refine exists_congr fun position => and_congr_right fun _ => exists_congr fun number => ?_
  exact and_comm

/-- With the layout detected, what is left of the sized file of an image is rejected exactly if it
ends before as many symbols as the code has bytes and the string table do, counted from the
classic header on, or if there is a negative number in one of these symbols. So it is always
rejected if seven times the code are as much as the symbols with four bytes. -/
theorem parse_detected_cut_iff (image : Image) (bounded : image.Bounded)
    (codeFits : image.code.size < 2147483648) (cut : Nat)
    (shorter : cut < (image.encode .sized).length) :
    ((∃ cause, parse .detected ((image.encode .sized).take cut) = .error cause) ↔
      cut < 12 + 8 * image.code.size + image.strings.size ∨
        ∃ position < 2 * image.code.size, ∃ number : Int32, number < 0 ∧
          LittleEndian.encode number <+: (image.encode .sized).drop (12 + 4 * position)) ∧
    (8 * image.publics.length + 4 ≤ 7 * image.code.size →
      ∃ cause, parse .detected ((image.encode .sized).take cut) = .error cause) := by
  have classic : parse .detected ((image.encode .sized).take cut) =
      parseClassic ((image.encode .sized).take cut) := by
    simp only [parse, isSized_cut bounded codeFits shorter, Bool.false_eq_true, if_false]
  have rejected : (∃ cause, parse .detected ((image.encode .sized).take cut) = .error cause) ↔
      cut < 12 + 8 * image.code.size + image.strings.size ∨
        ∃ position < 2 * image.code.size, ∃ number : Int32, number < 0 ∧
          LittleEndian.encode number <+: (image.encode .sized).drop (12 + 4 * position) := by
    rw [Answer.exists_error_iff, classic, exists_parseClassic_cut_iff bounded codeFits shorter,
      Classical.not_and_iff_not_or_not, Nat.not_le, not_noneNegative_iff]
    simp only [List.drop_drop]
  refine ⟨rejected, fun enough => ?_⟩
  rw [rejected]
  left
  rw [length_encode_sized] at shorter
  omega

/-- A program that does nothing but stop, with one symbol for it. -/
def onlyMain : Image where
  strings := #[0x6D, 0x61, 0x69, 0x6E, 0x00]
  publics := [⟨0, 0⟩]
  code := #[0xFF]
  globals := 0

/-- Without its last byte the sized file of this image is read as another image: a symbol is made
of the number of symbols and the name of the first, and the code of the string table. -/
theorem parse_detected_cut_onlyMain :
    onlyMain.Bounded ∧ onlyMain.code.size < 2147483648 ∧
      29 < (onlyMain.encode .sized).length ∧
      parse .detected ((onlyMain.encode .sized).take 29) =
        .ok ⟨#[0, 0, 0, 0, 0x6D], [⟨1, 0⟩], #[0x61, 0x69, 0x6E, 0], 0⟩ := by
  refine ⟨⟨by decide, by decide, by decide, ?_⟩, by decide, by decide, rfl⟩
  simp [onlyMain, PublicSymbol.Bounded]

/-- The same program with a second stop. -/
def stopTwice : Image := { onlyMain with code := #[0xFF, 0xFF] }

/-- Two bytes of code are enough for one symbol. -/
theorem parse_detected_cut_stopTwice :
    (∃ cause, parse .detected ((stopTwice.encode .sized).take 30) = .error cause) ∧
      30 < 12 + 8 * stopTwice.code.size + stopTwice.strings.size := by
  have bounded : stopTwice.Bounded := by
    refine ⟨by decide, by decide, by decide, ?_⟩
    simp [stopTwice, onlyMain, PublicSymbol.Bounded]
  have rejected := parse_detected_cut_iff stopTwice bounded (by decide) 30 (by decide)
  exact ⟨rejected.2 (by decide), by decide⟩

end BytecodeMachine.Image
