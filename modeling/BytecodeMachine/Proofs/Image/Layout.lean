import BytecodeMachine.Image.Layout
import BytecodeMachine.Proofs.Action
import BytecodeMachine.Proofs.LittleEndian
/-!
# Bytecode files are exact

A file determines its image and an image its file. Both layouts are read off in the same
way: a size in the header is the form of a number that stands at its position, symbols are
the forms of bounded symbols one behind another, and what is left is cut by the sizes. So
each part of a parser succeeds exactly when the bytes of its part stand where they should.

Sizes are written as the low 32 bits of them, so an image has a file that is read back only
if its sizes are below the bound of signed numbers.
-/
namespace BytecodeMachine

/-- A symbol whose numbers are not negative when they are read as signed. -/
def PublicSymbol.Bounded (symbol : PublicSymbol) : Prop :=
  symbol.name.toNat < 2147483648 ∧ symbol.offset.toNat < 2147483648

namespace Image

/-- An image whose sizes and symbols can be kept in signed numbers. -/
structure Bounded (image : Image) : Prop where
  strings : image.strings.size < 2147483648
  globals : image.globals < 2147483648
  publics : image.publics.length < 2147483648
  symbols : ∀ symbol ∈ image.publics, symbol.Bounded

variable {file : List UInt8} {position size : Nat}

/-- A number of the header is read where its four bytes stand. There is no other way to encode it,
so reading it and finding its encoding are the same. -/
theorem headerNumber?_eq_some_iff {number : Int32} :
    headerNumber? file position = some number ↔
      LittleEndian.encode number <+: file.drop (4 * position) := by
  unfold headerNumber?
  split
  · next b₀ b₁ b₂ b₃ rest found =>
    rw [found, Option.some_inj, LittleEndian.decode_eq_iff]
    exact (prefix_append_iff_eq [b₀, b₁, b₂, b₃] rest (LittleEndian.length_encode number)).symm
  · next short =>
    refine iff_of_false (by simp) ?_
    rintro ⟨tail, same⟩
    exact short _ _ _ _ tail same.symm

/-- A size can be read where its form stands, if it can be kept in a signed number. The number read
is unique, and it is refused if it is negative, which no size is that fits. -/
theorem headerSize_eq_ok_iff {field : HeaderField} :
    headerSize file position field = .ok size ↔
      size < 2147483648 ∧ encodeSize size <+: file.drop (4 * position) := by
  unfold headerSize encodeSize
  split
  · next missing =>
    refine iff_of_false (by simp) ?_
    rintro ⟨_, there⟩
    rw [← headerNumber?_eq_some_iff, missing] at there
    cases there
  · next number found =>
    split
    · next negative =>
      refine iff_of_false (by simp) ?_
      rintro ⟨fits, there⟩
      rw [← headerNumber?_eq_some_iff, found, Option.some_inj] at there
      rw [there] at negative
      exact Int32.not_lt.mpr (ofNat_nonneg fits) negative
    · next positive =>
      rw [← headerNumber?_eq_some_iff, found, Option.some_inj]
      constructor
      · rintro ⟨⟩
        exact ⟨toNat_lt number, (ofNat_toNat (Int32.not_lt.mp positive)).symm⟩
      · rintro ⟨fits, rfl⟩
        rw [toNat_ofNat fits]

/-- A public symbol takes two numbers. -/
theorem length_encode (symbol : PublicSymbol) : symbol.encode.length = 8 := rfl

/-- An unsigned number is not negative as a signed one if it is below the bound. -/
theorem toInt32_nonneg_iff (word : UInt32) : 0 ≤ word.toInt32 ↔ word.toNat < 2147483648 := by
  rw [Int32.le_iff_toInt_le]
  change 0 ≤ word.toBitVec.toInt ↔ word.toBitVec.toNat < 2147483648
  have bound := word.toBitVec.isLt
  rw [BitVec.toInt_eq_toNat_cond]
  split <;> omega

/-- Eight bytes are the form of a bounded symbol if neither of their numbers is negative. Each half
is one number, and encoding and decoding are inverse to each other on it. -/
theorem bounded_and_encode_eq_iff {symbol : PublicSymbol} {a₀ a₁ a₂ a₃ b₀ b₁ b₂ b₃ : UInt8} :
    symbol.Bounded ∧ symbol.encode = [a₀, a₁, a₂, a₃, b₀, b₁, b₂, b₃] ↔
      (0 ≤ LittleEndian.decode a₀ a₁ a₂ a₃ ∧ 0 ≤ LittleEndian.decode b₀ b₁ b₂ b₃) ∧
        symbol = ⟨(LittleEndian.decode a₀ a₁ a₂ a₃).toUInt32,
          (LittleEndian.decode b₀ b₁ b₂ b₃).toUInt32⟩ := by
  obtain ⟨name, offset⟩ := symbol
  constructor
  · rintro ⟨⟨nameFits, offsetFits⟩, written⟩
    have split : LittleEndian.encode name.toInt32 ++ LittleEndian.encode offset.toInt32 =
        [a₀, a₁, a₂, a₃] ++ [b₀, b₁, b₂, b₃] := written
    obtain ⟨first, second⟩ := List.append_inj split rfl
    rw [LittleEndian.decode_eq_iff.mpr first, LittleEndian.decode_eq_iff.mpr second]
    refine ⟨⟨?_, ?_⟩, ?_⟩
    · exact (toInt32_nonneg_iff name).mpr nameFits
    · exact (toInt32_nonneg_iff offset).mpr offsetFits
    · rw [UInt32.toUInt32_toInt32, UInt32.toUInt32_toInt32]
  · rintro ⟨⟨namePositive, offsetPositive⟩, same⟩
    obtain ⟨rfl, rfl⟩ := PublicSymbol.mk.inj same
    refine ⟨⟨(toInt32_nonneg_iff _).mp namePositive, (toInt32_nonneg_iff _).mp offsetPositive⟩, ?_⟩
    unfold PublicSymbol.encode
    rw [Int32.toInt32_toUInt32, Int32.toInt32_toUInt32, LittleEndian.encode_decode,
      LittleEndian.encode_decode]
    rfl

/-- The first symbol's form is the first eight bytes, and the others stand behind it. All forms
have eight bytes, so there is one way to cut the first one off. -/
theorem flatMap_cons_prefix_iff {symbol : PublicSymbol} {others : List PublicSymbol}
    {a₀ a₁ a₂ a₃ b₀ b₁ b₂ b₃ : UInt8} {rest : List UInt8} :
    (symbol :: others).flatMap PublicSymbol.encode <+:
        a₀ :: a₁ :: a₂ :: a₃ :: b₀ :: b₁ :: b₂ :: b₃ :: rest ↔
      symbol.encode = [a₀, a₁, a₂, a₃, b₀, b₁, b₂, b₃] ∧
        others.flatMap PublicSymbol.encode <+: rest := by
  rw [List.flatMap_cons, append_prefix_iff, length_encode]
  exact and_congr_left fun _ => prefix_append_iff_eq [a₀, a₁, a₂, a₃, b₀, b₁, b₂, b₃] rest
    (length_encode symbol)

/-- A list of eight bytes or more, taken apart byte by byte for the decoder to be computed on. -/
theorem exists_eight {bytes : List UInt8} (long : 8 ≤ bytes.length) :
    ∃ a₀ a₁ a₂ a₃ b₀ b₁ b₂ b₃ rest,
      bytes = a₀ :: a₁ :: a₂ :: a₃ :: b₀ :: b₁ :: b₂ :: b₃ :: rest := by
  match bytes, long with
  | a₀ :: a₁ :: a₂ :: a₃ :: b₀ :: b₁ :: b₂ :: b₃ :: rest, _ =>
    exact ⟨a₀, a₁, a₂, a₃, b₀, b₁, b₂, b₃, rest, rfl⟩

/-- A symbol is read if it is bounded and its form comes first, and the others behind it. The check
for negative numbers is the bound, by the lemma above. -/
theorem readPublics_succ_eq_ok_iff {count : Nat} {symbols : List PublicSymbol}
    {a₀ a₁ a₂ a₃ b₀ b₁ b₂ b₃ : UInt8} {rest : List UInt8} :
    readPublics (count + 1) (a₀ :: a₁ :: a₂ :: a₃ :: b₀ :: b₁ :: b₂ :: b₃ :: rest) = .ok symbols ↔
      ∃ symbol others, symbols = symbol :: others ∧
        (symbol.Bounded ∧ symbol.encode = [a₀, a₁, a₂, a₃, b₀, b₁, b₂, b₃]) ∧
          readPublics count rest = .ok others := by
  simp only [readPublics, bounded_and_encode_eq_iff]
  split
  · next negative =>
    refine iff_of_false (by simp) ?_
    rintro ⟨symbol, others, _, ⟨positive, _⟩, _⟩
    rcases negative with negative | negative
    · exact Int32.not_lt.mpr positive.1 negative
    · exact Int32.not_lt.mpr positive.2 negative
  · next positive =>
    rw [not_or, Int32.not_lt, Int32.not_lt] at positive
    cases readPublics count rest with
    | error cause => simp
    | ok found =>
      constructor
      · intro done
        cases done
        exact ⟨_, found, rfl, ⟨positive, rfl⟩, rfl⟩
      · rintro ⟨symbol, others, rfl, ⟨_, rfl⟩, ⟨⟩⟩
        rfl

/-- With enough bytes, reading symbols succeeds exactly on the forms of bounded ones. Proof:
induction on their number, with eight bytes taken off the front for each. -/
theorem readPublics_eq_ok_iff {count : Nat} {bytes : List UInt8} {symbols : List PublicSymbol}
    (long : count * 8 ≤ bytes.length) :
    readPublics count bytes = .ok symbols ↔
      symbols.length = count ∧ (∀ symbol ∈ symbols, symbol.Bounded) ∧
        symbols.flatMap PublicSymbol.encode <+: bytes := by
  induction count generalizing bytes symbols with
  | zero =>
    simp only [readPublics, Except.ok.injEq, List.length_eq_zero_iff]
    constructor
    · rintro rfl
      exact ⟨rfl, by simp, List.nil_prefix⟩
    · rintro ⟨rfl, _⟩
      rfl
  | succ count later =>
    have eight : 8 ≤ bytes.length := by omega
    obtain ⟨a₀, a₁, a₂, a₃, b₀, b₁, b₂, b₃, rest, rfl⟩ := exists_eight eight
    have restLong : count * 8 ≤ rest.length := by
      simp only [List.length_cons] at long
      omega
    rw [readPublics_succ_eq_ok_iff]
    constructor
    · rintro ⟨symbol, others, rfl, ⟨fits, written⟩, read⟩
      obtain ⟨length, bounded, there⟩ := (later restLong).mp read
      refine ⟨by rw [List.length_cons, length], ?_, ?_⟩
      · exact List.forall_mem_cons.mpr ⟨fits, bounded⟩
      · exact flatMap_cons_prefix_iff.mpr ⟨written, there⟩
    · rintro ⟨length, bounded, there⟩
      obtain ⟨symbol, others, rfl⟩ := List.exists_cons_of_length_eq_add_one length
      obtain ⟨fits, others'⟩ := List.forall_mem_cons.mp bounded
      obtain ⟨written, further⟩ := flatMap_cons_prefix_iff.mp there
      rw [List.length_cons, Nat.add_right_cancel_iff] at length
      exact ⟨symbol, others, rfl, ⟨fits, written⟩,
        (later restLong).mpr ⟨length, others', further⟩⟩

/-- So the table of symbols is eight bytes long for each of them. -/
theorem length_flatMap_encode (symbols : List PublicSymbol) :
    (symbols.flatMap PublicSymbol.encode).length = symbols.length * 8 := by
  induction symbols with
  | nil => rfl
  | cons symbol others later =>
    rw [List.flatMap_cons, List.length_append, later, length_encode, List.length_cons]
    omega

/-- If both tables end inside the file, it is split as far as its symbols can be read. Nothing else
is checked once the sizes are known to fit. -/
theorem splitTables_of_long {header publics strings : Nat} {tables : Tables}
    (long : header + publics * 8 + strings ≤ file.length) :
    splitTables file header publics strings = .ok tables ↔
      readPublics publics (file.drop header) = .ok tables.publics ∧
        tables.strings = (file.drop (header + publics * 8)).take strings ∧
        tables.rest = (file.drop (header + publics * 8)).drop strings := by
  obtain ⟨symbols, bytes, rest⟩ := tables
  unfold splitTables
  rw [if_neg (by omega), if_neg (by omega)]
  cases readPublics publics (file.drop header) with
  | error cause => simp
  | ok found =>
    simp only [Except.ok.injEq, Tables.mk.injEq]
    exact and_congr_right fun _ => and_congr eq_comm eq_comm

/-- What is split off a file was in it: the header and both tables together are no longer than the
file. -/
theorem length_of_splitTables {header publics strings : Nat} {tables : Tables}
    (done : splitTables file header publics strings = .ok tables) :
    header + publics * 8 + strings ≤ file.length := by
  unfold splitTables at done
  split at done
  · cases done
  · split at done
    · cases done
    · omega

/-- What is behind a header is split exactly into the forms of bounded symbols, as many bytes of
strings as are asked for, and the rest. -/
theorem splitTables_eq_ok_iff {header publics strings : Nat} {tables : Tables}
    (inside : header ≤ file.length) :
    splitTables file header publics strings = .ok tables ↔
      tables.publics.length = publics ∧ (∀ symbol ∈ tables.publics, symbol.Bounded) ∧
        tables.strings.length = strings ∧
        file.drop header =
          tables.publics.flatMap PublicSymbol.encode ++ (tables.strings ++ tables.rest) := by
  constructor
  · intro done
    have enough := length_of_splitTables done
    have long : publics * 8 ≤ (file.drop header).length := by
      rw [List.length_drop]
      omega
    obtain ⟨read, strings', rest⟩ := (splitTables_of_long enough).mp done
    obtain ⟨count, bounded, there⟩ := (readPublics_eq_ok_iff long).mp read
    have cut : header + publics * 8 =
        header + (tables.publics.flatMap PublicSymbol.encode).length := by
      rw [length_flatMap_encode, count]
    refine ⟨count, bounded, ?_, ?_⟩
    · rw [strings', List.length_take, List.length_drop]
      omega
    · rw [strings', rest, List.take_append_drop, cut, ← List.drop_drop]
      exact (List.prefix_iff_eq_append.mp there).symm
  · rintro ⟨count, bounded, length, whole⟩
    have lengths := congrArg List.length whole
    rw [List.length_append, List.length_append, length_flatMap_encode, List.length_drop] at lengths
    have long : publics * 8 ≤ (file.drop header).length := by
      rw [List.length_drop]
      omega
    obtain ⟨there, behind⟩ := eq_append_iff.mp whole
    have tailIs : file.drop (header + publics * 8) = tables.strings ++ tables.rest := by
      rw [← behind, List.drop_drop, length_flatMap_encode, count]
    refine (splitTables_of_long (by omega)).mpr ⟨?_, ?_, ?_⟩
    · exact (readPublics_eq_ok_iff long).mpr ⟨count, bounded, there⟩
    · rw [tailIs, ← length, List.take_left]
    · rw [tailIs, ← length, List.drop_left]

/-- A size takes four bytes in the header. -/
@[simp]
theorem length_encodeSize (size : Nat) : (encodeSize size).length = 4 := rfl

variable {image : Image}

/-- The parts of a file: its header, and behind it the tables and the code. -/
theorem encode_eq (image : Image) (layout : Layout) :
    image.encode layout = image.encodeHeader layout ++
      (image.publics.flatMap PublicSymbol.encode ++
        (image.strings.toList ++ image.code.toList)) := by
  simp only [encode, List.append_assoc]

/-- A file begins with the classic header if its three sizes stand one behind another, which is
checked number by number. -/
theorem encodeHeader_classic_prefix_iff :
    image.encodeHeader .classic <+: file ↔
      encodeSize image.strings.size <+: file.drop (4 * 0) ∧
        encodeSize image.globals <+: file.drop (4 * 1) ∧
        encodeSize image.publics.length <+: file.drop (4 * 2) := by
  simp only [encodeHeader, append_prefix_iff, List.length_append, length_encodeSize, and_assoc,
    Nat.mul_zero, List.drop_zero]

/-- The sized header has the size of the code as its third number, and the count of symbols behind
it. -/
theorem encodeHeader_sized_prefix_iff :
    image.encodeHeader .sized <+: file ↔
      encodeSize image.strings.size <+: file.drop (4 * 0) ∧
        encodeSize image.globals <+: file.drop (4 * 1) ∧
        encodeSize image.code.size <+: file.drop (4 * 2) ∧
        encodeSize image.publics.length <+: file.drop (4 * 3) := by
  simp only [encodeHeader, append_prefix_iff, List.length_append, length_encodeSize, and_assoc,
    Nat.mul_zero, List.drop_zero]

/-- A classic file is read as an image exactly if it is the file of that image. The sizes stand in
the header in both directions, and behind it the tables and the code are all there is. -/
theorem parseClassic_eq_ok_iff :
    parseClassic file = .ok image ↔ image.Bounded ∧ file = image.encode .classic := by
  simp only [parseClassic, Answer.bind_eq_ok_iff, headerSize_eq_ok_iff]
  rw [encode_eq, eq_append_iff]
  constructor
  · rintro ⟨strings, ⟨stringsFit, stringsAt⟩, globals, ⟨globalsFit, globalsAt⟩, publics,
      ⟨publicsFit, publicsAt⟩, tables, split, ⟨⟩⟩
    have inside : 12 ≤ file.length := by
      have length := publicsAt.length_le
      rw [length_encodeSize, List.length_drop] at length
      omega
    obtain ⟨rfl, bounded, rfl, whole⟩ := (splitTables_eq_ok_iff inside).mp split
    exact ⟨⟨stringsFit, globalsFit, publicsFit, bounded⟩,
      encodeHeader_classic_prefix_iff.mpr ⟨stringsAt, globalsAt, publicsAt⟩, whole⟩
  · rintro ⟨bounded, header, whole⟩
    obtain ⟨stringsAt, globalsAt, publicsAt⟩ := encodeHeader_classic_prefix_iff.mp header
    refine ⟨_, ⟨bounded.strings, stringsAt⟩, _, ⟨bounded.globals, globalsAt⟩, _,
      ⟨bounded.publics, publicsAt⟩,
      ⟨image.publics, image.strings.toList, image.code.toList⟩, ?_, rfl⟩
    exact (splitTables_eq_ok_iff header.length_le).mpr ⟨rfl, bounded.symbols, rfl, whole⟩

/-- A sized file is read as an image exactly if it begins with the file of that image. As for
classic files, except that the header tells the size of the code, so that as many bytes are taken
and what follows them is not looked at. -/
theorem parseSized_eq_ok_iff :
    parseSized file = .ok image ↔
      image.Bounded ∧ image.code.size < 2147483648 ∧ image.encode .sized <+: file := by
  simp only [parseSized, Answer.bind_eq_ok_iff, headerSize_eq_ok_iff]
  rw [encode_eq, append_prefix_iff]
  constructor
  · rintro ⟨strings, ⟨stringsFit, stringsAt⟩, globals, ⟨globalsFit, globalsAt⟩, code,
      ⟨codeFits, codeAt⟩, publics, ⟨publicsFit, publicsAt⟩, tables, split, done⟩
    have inside : 16 ≤ file.length := by
      have length := publicsAt.length_le
      rw [length_encodeSize, List.length_drop] at length
      omega
    obtain ⟨rfl, bounded, rfl, whole⟩ := (splitTables_eq_ok_iff inside).mp split
    split at done
    · cases done
    · next enough =>
      cases done
      have codeSize : (tables.rest.take code).toArray.size = code := by
        rw [List.size_toArray, List.length_take]
        omega
      refine ⟨⟨stringsFit, globalsFit, publicsFit, bounded⟩, ?_, ?_, ?_⟩
      · rw [codeSize]
        exact codeFits
      · refine encodeHeader_sized_prefix_iff.mpr ⟨stringsAt, globalsAt, ?_, publicsAt⟩
        rw [codeSize]
        exact codeAt
      · refine ⟨tables.rest.drop code, ?_⟩
        rw [List.append_assoc, List.append_assoc, List.take_append_drop]
        exact whole.symm
  · rintro ⟨bounded, codeFits, header, ⟨behind, whole⟩⟩
    obtain ⟨stringsAt, globalsAt, codeAt, publicsAt⟩ := encodeHeader_sized_prefix_iff.mp header
    refine ⟨_, ⟨bounded.strings, stringsAt⟩, _, ⟨bounded.globals, globalsAt⟩, _,
      ⟨codeFits, codeAt⟩, _, ⟨bounded.publics, publicsAt⟩,
      ⟨image.publics, image.strings.toList, image.code.toList ++ behind⟩, ?_, ?_⟩
    · refine (splitTables_eq_ok_iff header.length_le).mpr ⟨rfl, bounded.symbols, rfl, ?_⟩
      simpa only [List.append_assoc] using whole.symm
    · rw [if_neg (by rw [List.length_append, Array.length_toList]; omega)]
      rw [← Array.length_toList, List.take_left]
      rfl

/-- The two layouts are exact: a classic file is read as an image exactly if it is the file of
that image, and a sized one exactly if it begins with it. Images that are not bounded have no
file that is read back; and no file is read that ends before a sized one does. -/
theorem parse_eq_ok_iff (file : List UInt8) (image : Image) :
    (parse .classic file = .ok image ↔ image.Bounded ∧ file = image.encode .classic) ∧
      (parse .sized file = .ok image ↔
        image.Bounded ∧ image.code.size < 2147483648 ∧ image.encode .sized <+: file) ∧
      ∀ other, image.Bounded ∧ image.code.size < 2147483648 ∧ file <+: image.encode .sized ∧
        parse .sized file = .ok other → file = image.encode .sized := by
  refine ⟨parseClassic_eq_ok_iff, parseSized_eq_ok_iff, ?_⟩
  rintro other ⟨bounded, codeFits, shorter, read⟩
  obtain ⟨otherBounded, otherFits, begins⟩ := parseSized_eq_ok_iff.mp read
  have whole : parseSized (image.encode .sized) = .ok image :=
    parseSized_eq_ok_iff.mpr ⟨bounded, codeFits, List.prefix_refl _⟩
  have whole' : parseSized (image.encode .sized) = .ok other :=
    parseSized_eq_ok_iff.mpr ⟨otherBounded, otherFits, begins.trans shorter⟩
  obtain rfl := Except.ok.inj (whole'.symm.trans whole)
  exact shorter.eq_of_length (Nat.le_antisymm shorter.length_le begins.length_le)

end Image

end BytecodeMachine
