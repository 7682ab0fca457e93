import BytecodeMachine.Text.Hexadecimal
/-!
# Addresses are read back

The digits of a number are the usual ones to the base 16, in lower case.

The zeros that fill a numeral up to its width do not change the number it stands for, so reading
does not look at the width. An address is shown as the word that is its two's complement, and
every signed 32-bit number has one such word.
-/
namespace BytecodeMachine.Hexadecimal

variable {number : Nat} {c : Char}

/-- The value of a digit. Those above nine are written in lower case. -/
def digitValue? (c : Char) : Option Nat :=
  if '0' ≤ c ∧ c ≤ '9' then some (c.toNat - 48)
  else if 'a' ≤ c ∧ c ≤ 'f' then some (c.toNat - 87)
  else none

/-- Reads the digits after those of `value`. -/
def readDigits? (value : Nat) (cs : List Char) : Option Nat :=
  cs.foldlM (fun value c => (digitValue? c).map (value * 16 + ·)) value

/-- Reads an address, which begins with `0x`. -/
def readAddress? : List Char → Option Int32
  | '0' :: 'x' :: cs => (readDigits? 0 cs).map fun word => (UInt32.ofNat word).toInt32
  | _ => none

/-- A digit is the character of that name. -/
theorem digit_eq_digitChar : ∀ value < 16, digit value = Nat.digitChar value := by decide

/-- The digits are the usual ones: both are found by dividing by sixteen until one digit is left. -/
theorem digits_eq_toDigits (number : Nat) : digits number = Nat.toDigits 16 number := by
  induction number using digits.induct with
  | case1 number single =>
    rw [digits, if_pos single, Nat.toDigits_of_lt_base single, digit_eq_digitChar number single]
  | case2 number double later =>
    rw [digits, if_neg double, later, Nat.toDigits_of_base_le (by decide) (Nat.le_of_not_lt double),
      digit_eq_digitChar _ (Nat.mod_lt _ (by decide))]

/-- The short form is the usual numeral behind `0x`. -/
theorem short_eq (number : Nat) :
    short number = "0x" ++ String.ofList (Nat.toDigits 16 number) := by
  rw [short, digits_eq_toDigits]
  exact @String.ofList_append ['0', 'x'] (Nat.toDigits 16 number)

/-- Reading a digit gives its value back. -/
theorem digitValue?_digit : ∀ value < 16, digitValue? (digit value) = some value := by decide

/-- Every character written is one of the sixteen digits. Proof: induction along the recursion that
writes them, where the last digit is a remainder. -/
theorem exists_digit_of_mem (member : c ∈ digits number) : ∃ value < 16, c = digit value := by
  induction number using digits.induct with
  | case1 number single =>
    rw [digits, if_pos single] at member
    exact ⟨number, single, List.mem_singleton.mp member⟩
  | case2 number double later =>
    rw [digits, if_neg double] at member
    rcases List.mem_append.mp member with before | last
    · exact later before
    · exact ⟨number % 16, Nat.mod_lt _ (by decide), List.mem_singleton.mp last⟩

/-- Reading undoes writing, along the same recursion: all digits but the last one give the quotient
by sixteen, and the last one gives the remainder. -/
theorem readDigits?_digits (number : Nat) : readDigits? 0 (digits number) = some number := by
  induction number using digits.induct with
  | case1 number single =>
    rw [digits, if_pos single]
    simp [readDigits?, digitValue?_digit number single]
  | case2 number double later =>
    -- the digits before the last one stand for a sixteenth of the number
    have last := digitValue?_digit (number % 16) (Nat.mod_lt _ (by decide))
    have whole : number / 16 * 16 + number % 16 = number := by omega
    unfold readDigits? at later ⊢
    rw [digits, if_neg double, List.foldlM_append, later]
    simp [last, whole]

/-- Zeros in front add nothing to the number. -/
theorem readDigits?_zeros (count : Nat) (cs : List Char) :
    readDigits? 0 (List.replicate count '0' ++ cs) = readDigits? 0 cs := by
  induction count with
  | zero => rfl
  | succ count later => exact later

/-- So a numeral brought to a width by zeros is read as the one without them. -/
theorem readDigits?_padded (width number : Nat) :
    readDigits? 0 (padded width number) = some number := by
  rw [padded, readDigits?_zeros, readDigits?_digits]

/-- An address is spelled by the prefix and eight digits or more. -/
theorem toList_address (number : Int32) :
    (address number).toList = '0' :: 'x' :: padded 8 number.toUInt32.toNat :=
  String.toList_ofList

/-- An address names its number: the digits are those of its unsigned representative, from which
the number is had back. -/
theorem readAddress?_address (number : Int32) :
    readAddress? (address number).toList = some number := by
  rw [toList_address, readAddress?, readDigits?_padded, Option.map_some, UInt32.ofNat_toNat]
  rfl

/-- An address is one word. It has a prefix, zeros that fill it up, and digits, and none of these
is a blank. -/
theorem blank_notMem_address (number : Int32) : ' ' ∉ (address number).toList := by
  have digits : ∀ value < 16, ' ' ≠ digit value := by decide
  rw [toList_address, padded]
  simp only [List.mem_cons, List.mem_append, not_or]
  refine ⟨by decide, by decide, ?_, ?_⟩
  · intro member
    cases List.eq_of_mem_replicate member
  · intro member
    obtain ⟨value, single, same⟩ := exists_digit_of_mem member
    exact digits value single same

end BytecodeMachine.Hexadecimal
