import BytecodeMachine.Proofs.Size
import BytecodeMachine.Proofs.Text.Utf8
import BytecodeMachine.Tag
import Mathlib.Data.Nat.Digits.Lemmas
/-!
# Tags are numerals

A tag is a number to the base 64. Its digits are the codes of the characters that count, the
highest digit that of the first character. A numeral has no zeros in front, so the one name that
its tag does not spell is a name whose first character has the code zero. Zeros in the middle and
at the end are digits like all others.

Five digits are thirty bits. Every number of thirty bits is a tag, and is the tag of what it
spells.
-/
namespace BytecodeMachine.Tag

/-- The characters of names, in the order of their codes. -/
def alphabet : List UInt8 :=
  "_abcdefghijklmnopqrstuvwxyzABCDEFGHIJKLMNOPQRSTUVWXYZ0123456789'".toUTF8.data.toList

/-! ### Characters and codes -/

/-- The alphabet lists the characters of the codes in order. The table is small enough to be
compared entry by entry. -/
theorem alphabet_eq : alphabet = (List.range 64).map character := by
  decide +kernel

/-- A character has the code it was made from, by going through the 64 codes. -/
theorem code?_character {code : Nat} (small : code < 64) : code? (character code) = some code := by
  have table : ∀ code < 64, code? (character code) = some code := by decide +kernel
  exact table code small

/-- Only characters of the alphabet have a code, and it is the one they are made from. The 256
bytes are gone through once. -/
theorem character_of_code? {b : UInt8} {code : Nat} (coded : code? b = some code) :
    code < 64 ∧ character code = b := by
  have table : ∀ n < 256, ∀ code ∈ code? (UInt8.ofNat n),
      code < 64 ∧ character code = UInt8.ofNat n := by decide +kernel
  have entry := table b.toNat b.toNat_lt
  rw [UInt8.ofNat_toNat] at entry
  exact entry code coded

/-- The alphabet holds the characters of codes and nothing else. -/
theorem mem_alphabet_iff {b : UInt8} : b ∈ alphabet ↔ ∃ code < 64, character code = b := by
  simp only [alphabet_eq, List.mem_map, List.mem_range]

/-- All characters are of one byte in UTF-8. -/
theorem character_lt (code : Nat) : (character code).toNat < 0x80 := by
  by_cases small : code < 64
  · have table : ∀ code < 64, (character code).toNat < 0x80 := by decide +kernel
    exact table code small
  · unfold character
    rw [if_neg (by omega), if_neg (by omega), if_neg (by omega), if_neg (by omega)]
    decide

variable {codes codes' : List Nat} {name other : List UInt8} {tag tag' : Int32}
  {packed n count : Nat}

/-- Codes are read off their characters. -/
theorem map_code?_character (small : ∀ code ∈ codes, code < 64) :
    (codes.map character).map code? = codes.map some := by
  rw [List.map_map]
  exact List.map_congr_left fun code member => code?_character (small code member)

/-- Spelling is injective: the codes are had back from the characters, one by one. -/
theorem codes_inj (small : ∀ code ∈ codes, code < 64) (small' : ∀ code ∈ codes', code < 64)
    (same : codes.map character = codes'.map character) : codes = codes' := by
  have read := congrArg (List.map code?) same
  rw [map_code?_character small, map_code?_character small'] at read
  exact (List.map_injective_iff.mpr (Option.some_injective Nat)) read

/-- A name can be spelled by codes exactly if all its bytes are of the alphabet. The codes are
found by induction on the name. -/
theorem exists_codes_iff :
    (∃ codes : List Nat, (∀ code ∈ codes, code < 64) ∧ codes.map character = name) ↔
      ∀ b ∈ name, b ∈ alphabet := by
  induction name with
  | nil =>
    simp only [List.map_eq_nil_iff]
    exact iff_of_true ⟨[], by simp, rfl⟩ (by simp)
  | cons b rest later =>
    rw [List.forall_mem_cons, ← later, mem_alphabet_iff]
    constructor
    · rintro ⟨codes, small, spelled⟩
      obtain ⟨code, codes, rfl, first, others⟩ := List.map_eq_cons_iff.mp spelled
      obtain ⟨bound, small⟩ := List.forall_mem_cons.mp small
      exact ⟨⟨code, bound, first⟩, codes, small, others⟩
    · rintro ⟨⟨code, bound, rfl⟩, codes, small, rfl⟩
      exact ⟨code :: codes, List.forall_mem_cons.mpr ⟨bound, small⟩, rfl⟩

/-- The character of the code zero is that of no other code. So a name begins with this character
exactly if its codes begin with a zero. -/
theorem head?_eq_zero_iff (small : ∀ code ∈ codes, code < 64) :
    (codes.map character).head? = some (character 0) ↔ codes.head? = some 0 := by
  cases codes with
  | nil => simp
  | cons code codes =>
    simp only [List.map_cons, List.head?_cons, Option.some_inj]
    constructor
    · intro same
      have coded := code?_character (small code List.mem_cons_self)
      rw [same, code?_character (by decide)] at coded
      exact (Option.some.inj coded).symm
    · rintro rfl
      rfl

/-! ### Packing and unpacking -/

/-- What is packed is the numeral of the codes, behind what had been packed before. Proof:
induction on the name. One more character multiplies what has been packed by 64 and adds its code,
which is the same as putting the digit in front of the later ones. -/
theorem pack_eq_ok_iff :
    pack packed name = .ok n ↔
      ∃ codes : List Nat, (∀ code ∈ codes, code < 64) ∧ codes.map character = name ∧
        n = Nat.ofDigits 64 codes.reverse + 64 ^ codes.length * packed := by
  induction name generalizing packed with
  | nil =>
    constructor
    · rintro ⟨⟩
      exact ⟨[], by simp, rfl, by simp⟩
    · rintro ⟨codes, _, spelled, rfl⟩
      obtain rfl := List.map_eq_nil_iff.mp spelled
      simp [pack]
  | cons b rest later =>
    have shifted (code : Nat) (codes : List Nat) :
        Nat.ofDigits 64 codes.reverse + 64 ^ codes.length * (packed * 64 + code) =
          Nat.ofDigits 64 (code :: codes).reverse + 64 ^ (code :: codes).length * packed := by
      rw [List.reverse_cons, Nat.ofDigits_append, List.length_reverse, Nat.ofDigits_singleton,
        List.length_cons]
      ring
    rw [pack]
    constructor
    · intro done
      cases coded : code? b with
      | none =>
        rw [coded] at done
        cases done
      | some code =>
        rw [coded] at done
        obtain ⟨codes, small, rfl, rfl⟩ := later.mp done
        obtain ⟨bound, rfl⟩ := character_of_code? coded
        exact ⟨code :: codes, List.forall_mem_cons.mpr ⟨bound, small⟩, rfl, shifted code codes⟩
    · rintro ⟨codes, small, spelled, rfl⟩
      obtain ⟨code, codes, rfl, rfl, rfl⟩ := List.map_eq_cons_iff.mp spelled
      obtain ⟨bound, small⟩ := List.forall_mem_cons.mp small
      rw [code?_character bound]
      exact later.mpr ⟨codes, small, rfl, (shifted code codes).symm⟩

/-- What is unpacked are the characters of the digits. The digits of a number that fits end before
the characters do. -/
theorem unpack_natCast (fits : n < 64 ^ count) :
    unpack count n = ((Nat.digits 64 n).map character).reverse := by
  induction count generalizing n with
  | zero =>
    obtain rfl : n = 0 := by simpa using fits
    simp [unpack]
  | succ count later =>
    rw [unpack]
    by_cases zero : n = 0
    · simp [zero]
    · have rest : n / 64 < 64 ^ count := by
        rw [Nat.pow_succ] at fits
        exact Nat.div_lt_of_lt_mul (by rwa [Nat.mul_comm])
      have quotient : (n : Int) / 64 = (n / 64 : Nat) := by omega
      have remainder : ((n : Int) % 64).toNat = n % 64 := by omega
      rw [if_neg (by omega), quotient, remainder, later rest,
        Nat.digits_def' (by decide) (Nat.pos_of_ne_zero zero), List.map_cons, List.reverse_cons]

/-- No digit in front is zero, and this is all that tells numerals from other rows of digits. A
zero in front would be the last digit of a number that is not zero, and those have none. -/
theorem digits_ofDigits_reverse_iff (small : ∀ code ∈ codes, code < 64) :
    Nat.digits 64 (Nat.ofDigits 64 codes.reverse) = codes.reverse ↔ codes.head? ≠ some 0 := by
  constructor
  · intro digits zero
    obtain ⟨rest, rfl⟩ := List.head?_eq_some_iff.mp zero
    have positive : Nat.ofDigits 64 (0 :: rest).reverse ≠ 0 := by
      intro none
      rw [none] at digits
      simp at digits
    have front := Nat.getLast_digit_ne_zero 64 positive
    simp only [digits, List.getLast_reverse, List.head_cons] at front
    exact front rfl
  · intro front
    apply Nat.digits_ofDigits 64 (by decide)
    · exact fun code member => small code (List.mem_reverse.mp member)
    · intro more zero
      rw [List.getLast_reverse] at zero
      exact front (List.head?_eq_some_iff.mpr ⟨codes.tail, by
        rw [← zero, List.cons_head_tail]⟩)

/-- A tag that fits its five characters is spelled by its digits to base 64, the highest first. -/
theorem spelling_ofNat (fits : n < 64 ^ length) :
    spelling (Int32.ofNat n) = ((Nat.digits 64 n).map character).reverse := by
  have bound : n < 2147483648 := fits.trans (by decide)
  rw [spelling, toInt_ofNat bound, unpack_natCast fits]

/-- Codes are digits to base 64, and as few of them as a tag is long stay below the bound of
tags. -/
theorem ofDigits_lt (small : ∀ code ∈ codes, code < 64) (short : codes.length ≤ length) :
    Nat.ofDigits 64 codes.reverse < 64 ^ length := by
  have bound := Nat.ofDigits_lt_base_pow_length (b := 64) (l := codes.reverse) (by decide)
    fun code member => small code (List.mem_reverse.mp member)
  rw [List.length_reverse] at bound
  exact bound.trans_le (Nat.pow_le_pow_right (by decide) short)

/-! ### Names -/

/-- A tag spells what counts of its name. That is the last check before a tag is given, so it holds
of every tag there is. -/
theorem spelling_of_ofName (tagged : ofName name = .ok tag) : spelling tag = name.take length := by
  unfold ofName at tagged
  split at tagged
  · cases tagged
  · dsimp only at tagged
    split at tagged
    · next spelled =>
      cases tagged
      exact spelled
    · cases tagged

/-- Names have the same tag if what counts of them is the same, and only then. The tag is made of
that alone, and it can be spelled again. -/
theorem ofName_eq_iff (tagged : ofName name = .ok tag) (tagged' : ofName other = .ok tag') :
    tag = tag' ↔ name.take length = other.take length := by
  constructor
  · rintro rfl
    rw [← spelling_of_ofName tagged, ← spelling_of_ofName tagged']
  · intro same
    have again : ofName other = .ok tag := by
      rw [← tagged]
      simp only [ofName, same]
    exact Except.ok.inj (again.symm.trans tagged')

/-- The codes of the spelled beginning of a name are no more than a tag is long, as cutting leaves
no more. -/
theorem length_codes_le (spelled : codes.map character = name.take length) :
    codes.length ≤ length := by
  have same := congrArg List.length spelled
  rw [List.length_map] at same
  exact same.trans_le (List.length_take_le ..)

/-- A name has a tag if what counts of it is written with codes of which the first one is not zero.
The tag is the number with these digits. -/
theorem ofName_eq_ok_iff :
    ofName name = .ok tag ↔
      ∃ codes : List Nat, (∀ code ∈ codes, code < 64) ∧ codes.map character = name.take length ∧
        codes.head? ≠ some 0 ∧ tag = Int32.ofNat (Nat.ofDigits 64 codes.reverse) := by
  constructor
  · intro tagged
    have spells := spelling_of_ofName tagged
    unfold ofName at tagged
    split at tagged
    · cases tagged
    · next n packed =>
      obtain ⟨codes, small, spelled, rfl⟩ := pack_eq_ok_iff.mp packed
      dsimp only at tagged
      split at tagged
      · cases tagged
        rw [Nat.mul_zero, Nat.add_zero] at spells ⊢
        refine ⟨codes, small, spelled, ?_, rfl⟩
        rw [spelling_ofNat (ofDigits_lt small (length_codes_le spelled)), ← spelled,
          List.reverse_eq_iff, ← List.map_reverse] at spells
        apply (digits_ofDigits_reverse_iff small).mp
        refine codes_inj ?_ ?_ spells
        · exact fun code => Nat.digits_lt_base (by decide)
        · exact fun code member => small code (List.mem_reverse.mp member)
      · cases tagged
  · rintro ⟨codes, small, spelled, front, rfl⟩
    have packed : pack 0 (name.take length) = .ok (Nat.ofDigits 64 codes.reverse) :=
      pack_eq_ok_iff.mpr ⟨codes, small, spelled, by rw [Nat.mul_zero, Nat.add_zero]⟩
    have spells : spelling (Int32.ofNat (Nat.ofDigits 64 codes.reverse)) = name.take length := by
      rw [spelling_ofNat (ofDigits_lt small (length_codes_le spelled)),
        (digits_ofDigits_reverse_iff small).mpr front, List.map_reverse, List.reverse_reverse,
        spelled]
    rw [ofName, packed]
    exact if_pos spells

/-- A tag is not negative and below 2^30, whatever name it is made from: it is a number of at most
five digits to base 64. -/
theorem ofName_bounds (tagged : ofName name = .ok tag) : 0 ≤ tag.toInt ∧ tag.toInt < 2 ^ 30 := by
  obtain ⟨codes, small, spelled, _, rfl⟩ := ofName_eq_ok_iff.mp tagged
  have bound := ofDigits_lt small (length_codes_le spelled)
  have power : 64 ^ length = 2 ^ 30 := by decide
  rw [toInt_ofNat (by omega)]
  omega

/-- The name that a tag spells is its spelling, byte for byte. All characters of the alphabet are
below 128, so each is one byte in the text. -/
theorem toUTF8_name (tag : Int32) : (Tag.name tag).toUTF8.data.toList = spelling tag := by
  have characters (count : Nat) (number : Int) :
      ∀ b ∈ unpack count number, b.toNat < 0x80 := by
    induction count generalizing number with
    | zero => simp [unpack]
    | succ count later =>
      rw [unpack]
      split
      · simp
      · intro b member
        obtain before | last := List.mem_append.mp member
        · exact later _ b before
        · rw [List.mem_singleton.mp last]
          exact character_lt _
  exact Utf8.toUTF8_single (characters length tag.toInt)

/-! ### The text of a tag -/

/-- The letters of names, in the order of their codes. -/
def letters : List Char := "_abcdefghijklmnopqrstuvwxyzABCDEFGHIJKLMNOPQRSTUVWXYZ0123456789'".toList

/-- The text of a tag: the digits to the base 64 at its lowest five places, the highest one first,
each by the letter that has this number. A place is shown if the number does not end before it. -/
def shown (tag : Int32) : String :=
  String.ofList (((List.range 5).reverse.filter fun place => tag.toInt / 64 ^ place ≠ 0).map
    fun place => letters.getD (tag.toInt / 64 ^ place % 64).toNat '_')

/-- The letter of a code is its character. -/
theorem letters_getD {code : Nat} (small : code < 64) :
    letters.getD code '_' = Char.ofNat (character code).toNat := by
  have table : ∀ code < 64, letters.getD code '_' = Char.ofNat (character code).toNat := by
    decide +kernel
  exact table code small

/-- What is unpacked is read off the places of the number, each by itself. Behind the lowest place
stand those of the quotient, one lower each, and this is what the induction is on. -/
theorem map_unpack (count : Nat) (number : Int) :
    (unpack count number).map (fun b => Char.ofNat b.toNat) =
      ((List.range count).reverse.filter fun place => number / 64 ^ place ≠ 0).map
        fun place => letters.getD (number / 64 ^ place % 64).toNat '_' := by
  induction count generalizing number with
  | zero => rfl
  | succ count later =>
    have lower (place : Nat) : number / 64 / 64 ^ place = number / 64 ^ (place + 1) := by
      rw [Int.ediv_ediv_of_nonneg (by decide), Int.pow_succ, Int.mul_comm]
    have last : (number % 64).toNat < 64 := by omega
    rw [unpack]
    by_cases zero : number = 0
    · simp [zero]
    · rw [if_neg zero, List.map_append, later, List.map_singleton, ← letters_getD last,
        List.range_succ_eq_map, List.reverse_cons, List.filter_append, List.map_append,
        ← List.map_reverse, List.filter_map, List.map_map]
      simp [Function.comp_def, lower, zero]

/-- A tag is shown by the name that it spells. -/
theorem name_eq_shown (tag : Int32) : Tag.name tag = shown tag :=
  congrArg String.ofList (map_unpack length tag.toInt)

/-! ### Names that have a tag -/

/-- A name without a zero in front has a tag if what counts of it is in the alphabet. Its
characters have codes then, and no zero is lost when the codes are unpacked. -/
theorem exists_ofName_iff :
    (∃ tag, ofName name = .ok tag) ↔
      (∀ b ∈ name.take length, b ∈ alphabet) ∧ (name.take length).head? ≠ some (character 0) := by
  simp only [ofName_eq_ok_iff, ← exists_codes_iff]
  constructor
  · rintro ⟨_, codes, small, spelled, front, _⟩
    refine ⟨⟨codes, small, spelled⟩, ?_⟩
    rwa [← spelled, ne_eq, head?_eq_zero_iff small]
  · rintro ⟨⟨codes, small, spelled⟩, front⟩
    rw [← spelled, ne_eq, head?_eq_zero_iff small] at front
    exact ⟨_, codes, small, spelled, front, rfl⟩

/-- Every number of thirty bits is the tag of what it spells. Its digits to base 64 are at most
five codes, they spell the name, and packing them again gives the number. -/
theorem ofName_spelling (positive : 0 ≤ tag.toInt) (bound : tag.toInt < 2 ^ 30) :
    ofName (spelling tag) = .ok tag := by
  obtain ⟨n, number⟩ : ∃ n : Nat, tag.toInt = n := Int.eq_ofNat_of_zero_le positive
  obtain rfl : tag = Int32.ofNat n := by
    apply Int32.toInt_inj.mp
    rw [toInt_ofNat (by omega), number]
  have fits : n < 64 ^ length := by
    have power : 64 ^ length = 2 ^ 30 := by decide
    omega
  have short : (Nat.digits 64 n).length ≤ length :=
    (Nat.digits_length_le_iff (by decide) n).mpr fits
  have small : ∀ code ∈ (Nat.digits 64 n).reverse, code < 64 := fun code member =>
    Nat.digits_lt_base (by decide) (List.mem_reverse.mp member)
  refine ofName_eq_ok_iff.mpr ⟨(Nat.digits 64 n).reverse, small, ?_, ?_, ?_⟩
  · rw [spelling_ofNat fits, ← List.map_reverse, List.take_of_length_le]
    rwa [List.length_map, List.length_reverse]
  · apply (digits_ofDigits_reverse_iff small).mp
    rw [List.reverse_reverse, Nat.ofDigits_digits]
  · rw [List.reverse_reverse, Nat.ofDigits_digits]

/-- Tags and the names that have them are in a bijection.
* A name has a tag exactly if its first five bytes, or all of them if there are fewer, are in the
  alphabet and do not begin with the underscore.
* A tag is a number of thirty bits, and spells what counts of its name. So names have the same tag
  exactly if what counts of them is the same.
* Every number of thirty bits is the tag of the name that it spells. -/
theorem tags_are_spelled_names :
    (∀ name : List UInt8, (∃ tag, ofName name = .ok tag) ↔
      (∀ b ∈ name.take 5, b ∈ alphabet) ∧ (name.take 5).head? ≠ some 0x5F) ∧
    (∀ (name : List UInt8) (tag : Int32), ofName name = .ok tag →
      0 ≤ tag.toInt ∧ tag.toInt < 2 ^ 30 ∧ (Tag.name tag).toUTF8.data.toList = name.take 5) ∧
    (∀ (name other : List UInt8) (tag tag' : Int32), ofName name = .ok tag →
      ofName other = .ok tag' → (tag = tag' ↔ name.take 5 = other.take 5)) ∧
    ∀ tag : Int32, 0 ≤ tag.toInt → tag.toInt < 2 ^ 30 →
      ofName (Tag.name tag).toUTF8.data.toList = .ok tag := by
  refine ⟨fun name => exists_ofName_iff, ?_, fun _ _ _ _ => ofName_eq_iff, ?_⟩
  · intro name tag tagged
    obtain ⟨positive, bound⟩ := ofName_bounds tagged
    exact ⟨positive, bound, by rw [toUTF8_name, spelling_of_ofName tagged, length]⟩
  · intro tag positive bound
    rw [toUTF8_name, ofName_spelling positive bound]

/-- A name with the code zero in the middle and at the end, of which two characters do not count. -/
def underscored : List UInt8 := "a_'__xy".toUTF8.data.toList

/-- Behind what counts there may be anything, as in the longer of these names. Both have one tag,
which spells five characters and is the tag of these. -/
theorem tags_are_spelled_names_underscored :
    ofName underscored = .ok 17035264 ∧ ofName (underscored ++ [0xFF]) = .ok 17035264 ∧
      (∀ b ∈ underscored.take 5, b ∈ alphabet) ∧ (underscored.take 5).head? ≠ some 0x5F ∧
      underscored.take 5 = (underscored ++ [0xFF]).take 5 ∧
      (Tag.name 17035264).toUTF8.data.toList = underscored.take 5 ∧
      ofName (Tag.name 17035264).toUTF8.data.toList = .ok 17035264 := by
  obtain ⟨accepts, spells, same, back⟩ := tags_are_spelled_names
  have tagged : ofName underscored = .ok 17035264 := by decide +kernel
  have tagged' : ofName (underscored ++ [0xFF]) = .ok 17035264 := by decide +kernel
  obtain ⟨positive, bound, spelled⟩ := spells underscored 17035264 tagged
  obtain ⟨known, front⟩ := (accepts underscored).mp ⟨_, tagged⟩
  exact ⟨tagged, tagged', known, front, (same _ _ _ _ tagged tagged').mp rfl, spelled,
    back 17035264 positive bound⟩

end BytecodeMachine.Tag
