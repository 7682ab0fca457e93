import BytecodeMachine.Proofs.Size
import BytecodeMachine.Text.Decimal
/-!
# Numerals are read back

The numeral of a number is the usual one, without zeros in front.

Reading goes from left to right and refuses a numeral as soon as the digits read so far exceed the
range. The numeral of a number that is in the range is read to its end, since its beginnings stand
for smaller numbers. So a signed 32-bit number is read from its numeral, the least one as well,
whose magnitude is that of no positive number.
-/
namespace BytecodeMachine.Decimal

variable {number greatest value : Nat} {beyond : Failure} {c : Char}

/-- A digit is the character of that name. -/
theorem digit_eq_digitChar : ∀ value < 10, digit value = Nat.digitChar value := by decide

/-- The digits are the usual ones: both are found by dividing by ten until one digit is left. -/
theorem digits_eq_toDigits (number : Nat) : digits number = Nat.toDigits 10 number := by
  induction number using digits.induct with
  | case1 number single =>
    rw [digits, if_pos single, Nat.toDigits_of_lt_base single, digit_eq_digitChar number single]
  | case2 number double later =>
    rw [digits, if_neg double, later, Nat.toDigits_of_base_le (by decide) (Nat.le_of_not_lt double),
      digit_eq_digitChar _ (Nat.mod_lt _ (by decide))]

/-- So is the numeral of an integer, with a minus sign in front of a negative one. The digits are
those of the magnitude in both cases. -/
theorem text_eq_toString (number : Int) : text number = toString number := by
  rw [Int.toString_eq_repr, Int.repr_eq_if]
  cases number with
  | ofNat magnitude =>
    have positive : 0 ≤ Int.ofNat magnitude := Int.natCast_nonneg magnitude
    rw [if_pos positive, Nat.repr_eq_ofList_toDigits, ← digits_eq_toDigits]
    rfl
  | negSucc magnitude =>
    rw [if_neg (Int.not_le.mpr (Int.negSucc_lt_zero magnitude)), Nat.repr_eq_ofList_toDigits,
      ← digits_eq_toDigits, Int.neg_negSucc, Int.toNat_natCast]
    exact @String.ofList_append ['-'] (digits (magnitude + 1))

/-- Reading a digit gives its value back. -/
theorem digitValue?_digit : ∀ value < 10, digitValue? (digit value) = some value := by decide

/-- All characters of a numeral are digits. Proof: induction along the recursion that writes them,
where the last digit is a remainder. -/
theorem exists_digit_of_mem (member : c ∈ digits number) : ∃ value < 10, c = digit value := by
  induction number using digits.induct with
  | case1 number single =>
    rw [digits, if_pos single] at member
    exact ⟨number, single, List.mem_singleton.mp member⟩
  | case2 number double later =>
    rw [digits, if_neg double] at member
    rcases List.mem_append.mp member with before | last
    · exact later before
    · exact ⟨number % 10, Nat.mod_lt _ (by decide), List.mem_singleton.mp last⟩

/-- What holds of the minus sign and of the digits holds of all characters of numerals. So there
are eleven characters to be looked at, whatever the number is. -/
theorem holds_of_mem_chars (holds : Char → Prop) (minus : holds '-')
    (digits : ∀ value < 10, holds (digit value)) {number : Int} (member : c ∈ chars number) :
    holds c := by
  have ofDigits {magnitude : Nat} (member : c ∈ Decimal.digits magnitude) : holds c := by
    obtain ⟨value, single, rfl⟩ := exists_digit_of_mem member
    exact digits value single
  cases number with
  | ofNat magnitude => exact ofDigits member
  | negSucc magnitude =>
    rcases List.mem_cons.mp member with rfl | member
    · exact minus
    · exact ofDigits member

/-- Zero has a digit too. -/
theorem digits_ne_nil (number : Nat) : digits number ≠ [] := by
  unfold digits
  split <;> simp

/-- A numeral is never empty: it has a digit, or the sign in front of one. -/
theorem chars_ne_nil (number : Int) : chars number ≠ [] := by
  cases number with
  | ofNat magnitude => exact digits_ne_nil magnitude
  | negSucc magnitude => exact List.cons_ne_nil _ _

/-- The first character of an unsigned numeral is a digit, which is how it is told from a sign. -/
theorem exists_cons_digits (number : Nat) :
    ∃ value rest, value < 10 ∧ digits number = digit value :: rest := by
  obtain ⟨first, rest, whole⟩ := List.exists_cons_of_ne_nil (digits_ne_nil number)
  have member : first ∈ digits number := whole ▸ List.mem_cons_self
  obtain ⟨value, single, rfl⟩ := exists_digit_of_mem member
  exact ⟨value, rest, single, whole⟩

/-- Reading goes on from the value of what has been read. Proof: induction on the first characters;
if one of them is refused the others are not looked at. -/
theorem readMagnitude_append (cs ds : List Char) :
    readMagnitude greatest beyond value (cs ++ ds) =
      readMagnitude greatest beyond value cs >>= fun read =>
        readMagnitude greatest beyond read ds := by
  induction cs generalizing value with
  | nil => rfl
  | cons c cs later =>
    simp only [List.cons_append, readMagnitude]
    cases digitValue? c with
    | none => rfl
    | some d =>
      dsimp only
      split
      · exact later
      · rfl

/-- The numeral of a number in the range is read as this number. Proof: induction along the
recursion that writes it, and no value read on the way is beyond the range. -/
theorem readMagnitude_digits (inside : number ≤ greatest) :
    readMagnitude greatest beyond 0 (digits number) = .ok number := by
  induction number using digits.induct with
  | case1 number single =>
    rw [digits, if_pos single]
    simp [readMagnitude, digitValue?_digit number single, inside]
  | case2 number double later =>
    -- the digits before the last one stand for a tenth of the number
    have last := digitValue?_digit (number % 10) (Nat.mod_lt _ (by decide))
    have whole : number / 10 * 10 + number % 10 = number := by omega
    rw [digits, if_neg double, readMagnitude_append, later (by omega)]
    simp [readMagnitude, bind, Except.bind, last, whole, inside]

/-- Reading goes along the recursion that writes: the number read so far is multiplied by ten and
the last digit added, which is what division by ten has taken apart. -/
theorem readDigits_digits (inside : number ≤ greatest) :
    readDigits greatest beyond (digits number) = .ok number := by
  rw [readDigits, if_neg (by simpa using digits_ne_nil number), readMagnitude_digits inside]

/-- Without a sign the digits are those of a positive number. A numeral begins with a digit, so
neither of the two signs is found in front of it. -/
theorem readInt32_digits (inside : number ≤ 2147483647) :
    readInt32 (digits number) = .ok (Int32.ofNat number) := by
  have read : readDigits 2147483647 .tooLarge (digits number) = .ok number :=
    readDigits_digits inside
  obtain ⟨value, rest, single, whole⟩ := exists_cons_digits number
  have noSign : ∀ value < 10, digit value ≠ '+' ∧ digit value ≠ '-' := by decide
  rw [whole] at read ⊢
  unfold readInt32
  split
  · next none => cases none
  · next plus => exact absurd (List.cons.inj plus).1 (noSign value single).1
  · next minus => exact absurd (List.cons.inj minus).1 (noSign value single).2
  · rw [read]
    rfl

/-- Every number is read from its numeral. Proof: by the sign. The magnitude of a negative number
may be one more than that of a positive one, and each is checked against its own bound. -/
theorem readInt32_chars (number : Int32) : readInt32 (chars number.toInt) = .ok number := by
  have low := number.le_toInt
  have high := number.toInt_lt
  cases whole : number.toInt with
  | ofNat magnitude =>
    have positive : 0 ≤ number := by
      rw [Int32.le_iff_toInt_le, whole]
      exact Int.natCast_nonneg magnitude
    have same : Int32.ofNat magnitude = number := by
      rw [← ofNat_toNat positive, whole]
      rfl
    rw [whole, Int.ofNat_eq_natCast] at high
    rw [chars, readInt32_digits (by omega), same]
  | negSucc magnitude =>
    have inside : magnitude + 1 ≤ 2147483648 := by
      rw [whole] at low
      omega
    have same : Int32.ofInt (-(magnitude + 1 : Nat)) = number := by
      rw [← Int32.ofInt_toInt number, whole]
      rfl
    rw [chars, readInt32, readDigits_digits inside, ← same]
    rfl

/-- Reads a numeral, whatever is wrong with other texts. -/
def readNumber? (cs : List Char) : Option Int32 := (readInt32 cs).toOption

/-- What is written is read back, by cases on the sign. A number that is not negative begins with a
digit and is read as one. -/
theorem readNumber?_text (number : Int32) :
    readNumber? (text number.toInt).toList = some number := by
  rw [text, String.toList_ofList, readNumber?, readInt32_chars]
  rfl

/-- A character that is neither a digit nor the sign does not stand in a numeral. This is what
separators rely on. -/
theorem notMem_text (minus : c ≠ '-') (digits : ∀ value < 10, c ≠ digit value) (number : Int) :
    c ∉ (text number).toList := by
  rw [text, String.toList_ofList]
  intro member
  exact holds_of_mem_chars (c ≠ ·) minus digits member rfl

/-- A numeral is one word. -/
theorem blank_notMem_text (number : Int) : ' ' ∉ (text number).toList :=
  notMem_text (by decide) (by decide) number

end BytecodeMachine.Decimal
