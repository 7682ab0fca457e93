import BytecodeMachine.Proofs.Image.Layout
/-!
# When detection is right

Which header a file has is guessed from its size alone. A sized file is always taken for what
it is, since its header accounts for all of it.

A classic file has the number of symbols where a sized one has the size of the code, and where
a sized one has the number of symbols it has whatever comes first behind the header: the name
of a symbol, bytes of a string or bytes of code. If these happen to account for the file, it
is taken for a sized one, and then it cannot be read as its image: that would need a sized
file of the same image at its front, which is four bytes longer than the whole.
-/
namespace BytecodeMachine.Image

variable {file : List UInt8} {image : Image}

/-- A file is sized exactly if it has four numbers in its header, none of them negative, and
they account for its size. -/
theorem isSized_iff :
    isSized file = true ↔
      ∃ strings globals code publics : Int32,
        (headerNumber? file 0 = some strings ∧ headerNumber? file 1 = some globals ∧
          headerNumber? file 2 = some code ∧ headerNumber? file 3 = some publics) ∧
        (0 ≤ strings ∧ 0 ≤ globals ∧ 0 ≤ code ∧ 0 ≤ publics) ∧
          16 + publics.toInt.toNat * 8 + strings.toInt.toNat + code.toInt.toNat = file.length := by
  unfold isSized
  split
  · next strings globals code publics first second third fourth =>
    simp only [Bool.and_eq_true, decide_eq_true_eq, beq_iff_eq, first, second, third, fourth]
    constructor
    · rintro ⟨⟨⟨⟨positive₀, positive₁⟩, positive₂⟩, positive₃⟩, accounts⟩
      exact ⟨strings, globals, code, publics, ⟨rfl, rfl, rfl, rfl⟩,
        ⟨positive₀, positive₁, positive₂, positive₃⟩, accounts⟩
    · rintro ⟨_, _, _, _, ⟨⟨⟩, ⟨⟩, ⟨⟩, ⟨⟩⟩, ⟨positive₀, positive₁, positive₂, positive₃⟩, accounts⟩
      exact ⟨⟨⟨⟨positive₀, positive₁⟩, positive₂⟩, positive₃⟩, accounts⟩
  · next incomplete =>
    simp only [Bool.false_eq_true, false_iff]
    rintro ⟨strings, globals, code, publics, ⟨first, second, third, fourth⟩, _⟩
    exact incomplete strings globals code publics first second third fourth

/-- Where the form of a size stands in a header, the number is read. -/
theorem headerNumber?_of_size {position size : Nat}
    (stands : encodeSize size <+: file.drop (4 * position)) :
    headerNumber? file position = some (Int32.ofNat size) :=
  headerNumber?_eq_some_iff.mpr stands

/-- The length of a classic file is that of its three sizes, its tables and its code. Detection
compares files by this number. -/
theorem length_encode_classic (image : Image) :
    (image.encode .classic).length =
      12 + image.publics.length * 8 + image.strings.size + image.code.size := by
  have header : (image.encodeHeader .classic).length = 12 := rfl
  simp only [encode_eq, List.length_append, header, length_flatMap_encode, Array.length_toList]
  omega

/-- A sized file is longer by the one number that its header has more. -/
theorem length_encode_sized (image : Image) :
    (image.encode .sized).length =
      16 + image.publics.length * 8 + image.strings.size + image.code.size := by
  have header : (image.encodeHeader .sized).length = 16 := rfl
  simp only [encode_eq, List.length_append, header, length_flatMap_encode, Array.length_toList]
  omega

/-- The header comes first in either layout. -/
theorem encodeHeader_prefix (image : Image) (layout : Layout) :
    image.encodeHeader layout <+: image.encode layout := by
  rw [encode_eq]
  exact List.prefix_append ..

/-- The header of a sized file accounts for all of it. Its four sizes are read back as they were,
since they are bounded, and the length of the file is the sum that they give. -/
theorem isSized_encode_sized (bounded : image.Bounded) (codeFits : image.code.size < 2147483648) :
    isSized (image.encode .sized) = true := by
  obtain ⟨strings, globals, code, publics⟩ :=
    encodeHeader_sized_prefix_iff.mp (image.encodeHeader_prefix .sized)
  refine isSized_iff.mpr ⟨_, _, _, _, ⟨headerNumber?_of_size strings,
    headerNumber?_of_size globals, headerNumber?_of_size code, headerNumber?_of_size publics⟩,
    ⟨ofNat_nonneg bounded.strings, ofNat_nonneg bounded.globals, ofNat_nonneg codeFits,
      ofNat_nonneg bounded.publics⟩, ?_⟩
  rw [toNat_ofNat bounded.strings, toNat_ofNat codeFits, toNat_ofNat bounded.publics,
    length_encode_sized]

/-- A classic file is taken for a sized one exactly if a number stands behind its header that is
not negative and makes up, as a number of symbols, for the difference in size. -/
theorem isSized_encode_classic_iff (bounded : image.Bounded) :
    isSized (image.encode .classic) = true ↔
      ∃ x : Int32, headerNumber? (image.encode .classic) 3 = some x ∧ 0 ≤ x ∧
        4 + 8 * x.toInt = 7 * image.publics.length + image.code.size := by
  obtain ⟨strings, globals, publics⟩ :=
    encodeHeader_classic_prefix_iff.mp (image.encodeHeader_prefix .classic)
  have first := headerNumber?_of_size strings
  have second := headerNumber?_of_size globals
  have third := headerNumber?_of_size publics
  have accounts (x : Int32) (positive : 0 ≤ x) :
      16 + x.toInt.toNat * 8 + image.strings.size + image.publics.length =
          (image.encode .classic).length ↔
        4 + 8 * x.toInt = 7 * image.publics.length + image.code.size := by
    have natural : 0 ≤ x.toInt := Int32.le_iff_toInt_le.mp positive
    rw [length_encode_classic]
    omega
  rw [isSized_iff]
  constructor
  · rintro ⟨_, _, _, x, ⟨found₀, found₁, found₂, fourth⟩, ⟨_, _, _, positive⟩, whole⟩
    obtain rfl := Option.some.inj (first.symm.trans found₀)
    obtain rfl := Option.some.inj (third.symm.trans found₂)
    rw [toNat_ofNat bounded.strings, toNat_ofNat bounded.publics] at whole
    exact ⟨x, fourth, positive, (accounts x positive).mp whole⟩
  · rintro ⟨x, fourth, positive, same⟩
    refine ⟨_, _, _, x, ⟨first, second, third, fourth⟩, ⟨ofNat_nonneg bounded.strings,
      ofNat_nonneg bounded.globals, ofNat_nonneg bounded.publics, positive⟩, ?_⟩
    rw [toNat_ofNat bounded.strings, toNat_ofNat bounded.publics]
    exact (accounts x positive).mpr same

/-- No classic file is read as its image when it is taken for a sized one. It is too short. -/
theorem parseSized_encode_classic_ne (image : Image) :
    parseSized (image.encode .classic) ≠ .ok image := by
  intro read
  obtain ⟨_, _, begins⟩ := parseSized_eq_ok_iff.mp read
  have shorter := begins.length_le
  rw [length_encode_classic, length_encode_sized] at shorter
  omega

/-- Four bytes are the form of a number exactly if they are taken from where it stands. -/
theorem take_four_eq_encode_iff {bytes : List UInt8} {number : Int32} :
    bytes.take 4 = LittleEndian.encode number ↔ LittleEndian.encode number <+: bytes := by
  rw [List.prefix_iff_eq_take, LittleEndian.length_encode]
  exact eq_comm

/-- The bytes from twelve to sixteen are a number if the file has them. -/
theorem exists_fourth_number (long : 16 ≤ file.length) :
    ∃ x : Int32, (file.drop 12).take 4 = LittleEndian.encode x := by
  have four : ((file.drop 12).take 4).length = 4 := by
    rw [List.length_take, List.length_drop]
    omega
  match bytes : (file.drop 12).take 4, four with
  | [b₀, b₁, b₂, b₃], _ =>
    exact ⟨LittleEndian.decode b₀ b₁ b₂ b₃, (LittleEndian.encode_decode b₀ b₁ b₂ b₃).symm⟩

/-- With the layout detected, the sized file of an image is always read as this image. Its classic
file is read as this image exactly if it has no four bytes behind its header, or these are a
negative number, or the number does not make up for the difference in size: four bytes and
eight for each symbol it promises, against seven for each symbol there is and the code. -/
theorem parse_detected_encode_iff (image : Image) (bounded : image.Bounded)
    (codeFits : image.code.size < 2147483648) :
    parse .detected (image.encode .sized) = .ok image ∧
      (parse .detected (image.encode .classic) = .ok image ↔
        (image.encode .classic).length < 16 ∨
          ∃ x : Int32, ((image.encode .classic).drop 12).take 4 = LittleEndian.encode x ∧
            (x < 0 ∨ 4 + 8 * x.toInt ≠ 7 * image.publics.length + image.code.size)) := by
  have asSized : parseSized (image.encode .sized) = .ok image :=
    parseSized_eq_ok_iff.mpr ⟨bounded, codeFits, List.prefix_refl _⟩
  have asClassic : parseClassic (image.encode .classic) = .ok image :=
    parseClassic_eq_ok_iff.mpr ⟨bounded, rfl⟩
  constructor
  · simp only [parse, isSized_encode_sized bounded codeFits, if_true, asSized]
  have classic : parse .detected (image.encode .classic) = .ok image ↔
      ¬ isSized (image.encode .classic) = true := by
    by_cases mistaken : isSized (image.encode .classic) = true
    · simp only [parse, mistaken, if_true, not_true, iff_false]
      exact image.parseSized_encode_classic_ne
    · simp only [parse, mistaken, if_false, Bool.false_eq_true, not_false_eq_true, iff_true]
      exact asClassic
  rw [classic, isSized_encode_classic_iff bounded]
  simp only [headerNumber?_eq_some_iff, take_four_eq_encode_iff]
  constructor
  · intro other
    by_cases long : 16 ≤ (image.encode .classic).length
    · obtain ⟨x, fourth⟩ := exists_fourth_number long
      have stands := take_four_eq_encode_iff.mp fourth
      refine .inr ⟨x, stands, ?_⟩
      by_cases negative : x < 0
      · exact .inl negative
      · exact .inr fun same => other ⟨x, stands, Int32.not_lt.mp negative, same⟩
    · exact .inl (Nat.lt_of_not_le long)
  · rintro (short | ⟨x, stands, off⟩) ⟨y, stands', positive, same⟩
    · have inside := stands'.length_le
      rw [LittleEndian.length_encode, List.length_drop] at inside
      omega
    · -- one number stands there, so both are the same one
      have written := take_four_eq_encode_iff.mpr stands
      have written' := take_four_eq_encode_iff.mpr stands'
      obtain rfl := LittleEndian.encode_injective (written.symm.trans written')
      rcases off with negative | differs
      · exact Int32.not_lt.mpr positive negative
      · exact differs same

/-- An image without strings and symbols whose code is four zero bytes, just as many as its
classic file is short of a sized one. -/
def fourZeros : Image where
  strings := #[]
  publics := []
  code := #[0, 0, 0, 0]
  globals := 0

/-- The classic file of this image is taken for a sized one, and is not read as the image. Its code
is taken for the fourth size of the longer header, behind which no code is left. -/
theorem parse_detected_fourZeros :
    parse .detected (fourZeros.encode .sized) = .ok fourZeros ∧
      parse .detected (fourZeros.encode .classic) ≠ .ok fourZeros := by
  have bounded : fourZeros.Bounded := ⟨by decide, by decide, by decide, fun _ none => nomatch none⟩
  obtain ⟨sized, classic⟩ := parse_detected_encode_iff fourZeros bounded (by decide)
  refine ⟨sized, fun read => ?_⟩
  rcases classic.mp read with short | ⟨x, there, off⟩
  · exact absurd short (by decide)
  · have zero : x = 0 := LittleEndian.encode_injective (there.symm.trans (by decide))
    subst zero
    revert off
    decide

end BytecodeMachine.Image
