import BytecodeMachine.Proofs.Console.Delivery
import BytecodeMachine.Proofs.Text.Decimal
/-!
# What has been written is read back

A program writes each number on a line of its own, and a program that reads these lines gets the
same numbers: a line is one word, which is the numeral of the number. Blanks may be inserted
around the numerals, be they spaces, further line feeds or blanks beyond ASCII, since they only
part words that are parted already.
-/
namespace BytecodeMachine

namespace Text

variable {blanks word cs : List Char}

/-- Blanks in front of a text are in no word. -/
theorem words_blanks_append (blank : ∀ c ∈ blanks, isBlank c) (cs : List Char) :
    words (blanks ++ cs) = words cs := by
  induction blanks with
  | nil => rfl
  | cons b blanks later =>
    obtain ⟨first, others⟩ := List.forall_mem_cons.mp blank
    exact (words_append_blank [] (blanks ++ cs) first).trans (later others)

/-- Blanks alone are no words. -/
theorem words_of_blanks (blank : ∀ c ∈ blanks, isBlank c) : words blanks = [] := by
  rw [← List.append_nil blanks]
  exact words_blanks_append blank []

/-- What has no blanks is one word. -/
theorem words_of_unbroken (filled : word ≠ []) (unbroken : ∀ c ∈ word, isBlank c = false) :
    words word = [word] := by
  have whole : word.splitOnP isBlank = [word] :=
    List.splitOnP_eq_singleton fun c member => by simp [unbroken c member]
  rw [words_eq_splitOnP, whole]
  simpa using filled

end Text

namespace Console

open BytecodeMachine.Action

variable {input : List UInt8} {cs : List Char}

/-- A well-formed input offers the words of its text, whatever its lines are. Proof: strong
induction on the length. The first line is well-formed and ends every word, so it offers its own
words and the shorter rest offers the others. -/
theorem contributions_of_decode? (decoded : Utf8.decode? input = some cs) :
    contributions input = (Text.words cs).map fun word => .ok (String.ofList word) := by
  induction size : input.length using Nat.strongRecOn generalizing input cs with
  | ind size later =>
    subst size
    cases input with
    | nil =>
      rw [Utf8.decode?] at decoded
      cases decoded
      rfl
    | cons b rest =>
      obtain ⟨as, ds, first, second, together⟩ := takeLine_decoded decoded
      have shorter := takeLine_length b rest
      have others := later _ (by rw [List.length_cons]; omega) second rfl
      rw [contributions_cons, offered_eq, lineWords_decoded first, others, ← together,
        List.map_append]
      simp

/-- The bytes of a number's numeral, without the line feed. -/
def numeral (number : Int32) : List UInt8 :=
  (Decimal.chars number.toInt).map fun c => UInt8.ofNat c.toNat

/-- The line of a number is its numeral and a line feed. -/
theorem numberLine_eq (number : Int32) : numberLine number = numeral number ++ [10] := rfl

/-- The characters of numerals are ASCII and no blanks. -/
theorem plain_of_mem_chars {number : Int} {c : Char} (member : c ∈ Decimal.chars number) :
    c.val.toNat ≤ 127 ∧ c.toNat ≠ 10 ∧ Text.isBlank c = false := by
  refine Decimal.holds_of_mem_chars
    (fun c => c.val.toNat ≤ 127 ∧ c.toNat ≠ 10 ∧ Text.isBlank c = false) ?_ ?_ member <;> decide

/-- A character up to 127 is encoded by the byte of its number. -/
theorem encode_of_ascii {c : Char} (ascii : c.val.toNat ≤ 127) :
    String.utf8EncodeChar c = [UInt8.ofNat c.toNat] :=
  String.utf8EncodeChar_eq_singleton
    (Char.utf8Size_eq_one_iff.mpr (UInt32.le_iff_toNat_le.mpr ascii))

/-- The characters of numerals are of that sort, so that their encoding is taken character by
character. -/
theorem encode_chars (number : Int32) :
    (Decimal.chars number.toInt).flatMap String.utf8EncodeChar = numeral number := by
  have each : ∀ c ∈ Decimal.chars number.toInt,
      String.utf8EncodeChar c = [UInt8.ofNat c.toNat] :=
    fun c member => encode_of_ascii (plain_of_mem_chars member).1
  rw [List.flatMap_def, List.map_congr_left each, ← List.flatMap_def, numeral,
    List.map_eq_flatMap]

/-- No line feed stands in a numeral, which has digits and a sign only. -/
theorem feed_notMem_numeral (number : Int32) : 10 ∉ numeral number := by
  intro member
  obtain ⟨c, inside, same⟩ := List.mem_map.mp member
  obtain ⟨ascii, other, _⟩ := plain_of_mem_chars inside
  have small : c.toNat ≤ 127 := ascii
  rw [← UInt8.toNat_inj, UInt8.toNat_ofNat_of_lt' (by omega : c.toNat < 256)] at same
  exact other same

/-- A numeral is parsed to its number, which is in range as it was a number of 32 bits. -/
theorem parse_numeral (number : Int32) :
    parse (String.ofList (Decimal.chars number.toInt)) = .ok number := by
  rw [parse, String.toList_ofList, Decimal.readInt32_chars]

/-- Bytes without a line feed, and then one, are the first line. -/
theorem lines_append_feed {line : List UInt8} (unbroken : 10 ∉ line) (rest : List UInt8) :
    lines (line ++ 10 :: rest) = (line ++ [10]) :: lines rest := by
  induction line with
  | nil => simp [lines]
  | cons b line later =>
    rw [List.mem_cons, not_or] at unbroken
    rw [List.cons_append, lines, if_neg (Ne.symm unbroken.1), later unbroken.2]
    rfl

/-- The lines that have been written are those of the numbers. -/
theorem lines_numberLines (numbers : List Int32) :
    lines (numbers.flatMap numberLine) = numbers.map numberLine := by
  induction numbers with
  | nil => rfl
  | cons number numbers later =>
    rw [List.flatMap_cons, numberLine_eq, List.append_assoc, List.singleton_append,
      lines_append_feed (feed_notMem_numeral number), later, List.map_cons, numberLine_eq]

/-- An input with the lines of another one and further blanks around them: in front of each line
and behind the last one, and in front of the line feeds. -/
inductive Spaced : List (List UInt8) → List UInt8 → Prop
  | last (blanks : List Char) (blank : ∀ c ∈ blanks, Text.isBlank c) :
      Spaced [] (blanks.flatMap String.utf8EncodeChar)
  | line (before behind : List Char) {whole line rest : List UInt8} {lines : List (List UInt8)}
      (ends : whole = line ++ [10]) (blank : ∀ c ∈ before ++ behind, Text.isBlank c)
      (more : Spaced lines rest) :
      Spaced (whole :: lines)
        (before.flatMap String.utf8EncodeChar ++ line ++
          behind.flatMap String.utf8EncodeChar ++ 10 :: rest)

/-- No blanks are inserted. -/
theorem spaced_numberLines (numbers : List Int32) :
    Spaced (numbers.map numberLine) (numbers.flatMap numberLine) := by
  induction numbers with
  | nil => exact .last [] nofun
  | cons number numbers later =>
    rw [List.flatMap_cons, numberLine_eq, List.append_assoc]
    have line := Spaced.line [] [] (numberLine_eq number) nofun later
    simpa using line

/-- The blanks do not matter for the words, which are the numerals. Proof: induction on the
numbers. A line is blanks, a numeral without blanks in it, blanks, and a line feed; the blanks in
front are skipped, and what follows the numeral begins with a blank in any case. -/
theorem Spaced.words_eq {numbers : List Int32} (spaced : Spaced (numbers.map numberLine) input) :
    ∃ cs, Utf8.decode? input = some cs ∧
      Text.words cs = numbers.map fun number => Decimal.chars number.toInt := by
  induction numbers generalizing input with
  | nil =>
    cases spaced with
    | last blanks blank => exact ⟨blanks, Utf8.decode?_encode blanks, Text.words_of_blanks blank⟩
  | cons number numbers later =>
    cases spaced with
    | @line before behind _ line _ _ ends blank more =>
      obtain rfl : numeral number = line := List.append_cancel_right ends
      obtain ⟨cs, decoded, words⟩ := later more
      obtain ⟨front, back⟩ := List.forall_mem_append.mp blank
      refine ⟨before ++ (Decimal.chars number.toInt ++ (behind ++ '\n' :: cs)), ?_, ?_⟩
      · rw [Utf8.decode?_eq_some_iff, ← Utf8.encode_of_decode? decoded, ← encode_chars]
        simp only [List.flatMap_append, List.flatMap_cons, List.append_assoc]
        rfl
      · have numeral := Text.words_of_unbroken (Decimal.chars_ne_nil number.toInt)
          fun c member => (plain_of_mem_chars member).2.2
        -- the blanks behind the numeral end with the line feed, so there is one at least
        have parted : Text.words (Decimal.chars number.toInt ++ (behind ++ '\n' :: cs)) =
            Text.words (Decimal.chars number.toInt) ++ Text.words cs := by
          cases behind with
          | nil => exact Text.words_append_blank _ _ (by decide)
          | cons b behind =>
            obtain ⟨first, others⟩ := List.forall_mem_cons.mp back
            rw [List.cons_append, Text.words_append_blank _ _ first,
              Text.words_blanks_append others]
            exact congrArg _ (Text.words_append_blank [] cs (by decide))
        rw [Text.words_blanks_append front, parted, numeral, words]
        rfl

variable {console : Console}

/-- Where output never fails, writing a number appends its line. -/
theorem writeNumber_of_neverFails (sure : NeverFails console.sink) (number : Int32) :
    writeNumber number console =
      .ok () { console with output := console.output ++ numberLine number } := by
  rw [writeNumber, bind_of_ok (during_eq_ok_iff.mpr (write_of_neverFails sure _))]
  exact during_eq_ok_iff.mpr (flush_of_neverFails sure)

/-- Numbers are written on lines of their own, one after another. No write is refused, because the
sink never fails and stays the same while the output grows. -/
theorem series_writeNumber (sure : NeverFails console.sink) (numbers : List Int32) :
    series (numbers.map writeNumber) console =
      (numbers.map fun _ => .ok (),
        { console with output := console.output ++ numbers.flatMap numberLine }) := by
  induction numbers generalizing console with
  | nil => simp [series]
  | cons number numbers later =>
    rw [List.map_cons, series_cons, outcome_of_ok (writeNumber_of_neverFails sure number)]
    have after : NeverFails { console with output := console.output ++ numberLine number }.sink :=
      sure
    rw [later after]
    simp [← Array.toList_inj]

/-- Behind the elements of a list comes what stands for those that are not there. -/
theorem map_getD_range {α : Type} (xs : List α) (other : α) :
    ((List.range (xs.length + 1)).map fun index => xs[index]?.getD other) = xs ++ [other] := by
  induction xs with
  | nil => rfl
  | cons x xs later =>
    rw [List.length_cons, List.range_succ_eq_map, List.map_cons, List.map_map, List.cons_append,
      ← later]
    rfl

/-- Readings give the numbers whose lines the input has, and then the end of the input. The words
left are the numerals, the readings take them in order, and each one is parsed to its number; the
last reading finds none. -/
theorem series_readNumber_of_spaced {numbers : List Int32} (none : console.pending = [])
    (sure : NeverFails console.sink) (spaced : Spaced (numbers.map numberLine) console.input) :
    (series (List.replicate (numbers.length + 1) readNumber) console).1 =
      numbers.map .ok ++ [.error (.world .endOfInput)] := by
  obtain ⟨cs, decoded, words⟩ := spaced.words_eq
  have offers : console.left =
      numbers.map fun number => .ok (String.ofList (Decimal.chars number.toInt)) := by
    rw [left, none, contributions_of_decode? decoded, words, List.map_map]
    rfl
  have length : numbers.length = console.left.length := by rw [offers, List.length_map]
  have taken := map_getD_range console.left (.error (.world .endOfInput))
  rw [(series_readNumber sure _).1, length]
  calc (List.range (console.left.length + 1)).map (fun index =>
        (console.left[index]?.getD (.error (.world .endOfInput))) >>= parse)
    _ = ((List.range (console.left.length + 1)).map fun index =>
          console.left[index]?.getD (.error (.world .endOfInput))).map (· >>= parse) := by
        rw [List.map_map]
        rfl
    _ = (console.left ++ [Except.error (Fault.world .endOfInput)]).map (· >>= parse) := by
        rw [taken]
    _ = numbers.map .ok ++ [.error (.world .endOfInput)] := by
        rw [offers, List.map_append, List.map_map]
        refine congrArg (· ++ _) (List.map_congr_left fun number _ => ?_)
        exact parse_numeral number

/-- What one program writes another one reads. If output never fails, any numbers are written one
by one, and what has been written, given as input to a console, is read as these numbers in this
order and ends behind them. It is so for every input with the lines that have been written and
any blanks around them; what has been written is itself such an input. -/
theorem reads_back_what_was_written {writer : Console} (fresh : writer.output = #[])
    (sure : NeverFails writer.sink) (numbers : List Int32) :
    ∃ after, series (numbers.map writeNumber) writer = (numbers.map fun _ => .ok (), after) ∧
      Spaced (lines after.output.toList) after.output.toList ∧
      ∀ reader : Console, reader.pending = [] → NeverFails reader.sink →
        Spaced (lines after.output.toList) reader.input →
        (series (List.replicate (numbers.length + 1) readNumber) reader).1 =
          numbers.map .ok ++ [.error (.world .endOfInput)] := by
  refine ⟨_, series_writeNumber sure numbers, ?_⟩
  have written : (writer.output ++ numbers.flatMap numberLine).toList =
      numbers.flatMap numberLine := by simp [fresh]
  dsimp only
  rw [written, lines_numberLines]
  exact ⟨spaced_numberLines numbers, fun reader none sure spaced =>
    series_readNumber_of_spaced none sure spaced⟩

/-- The least number and a small one, read back with a no-break space and an empty line in front
of their lines, and a space in front of the last line feed. -/
theorem reads_back_what_was_written_spread :
    ∃ after, series ([-2147483648, 70].map writeNumber) {} = ([.ok (), .ok ()], after) ∧
      (series (List.replicate 3 readNumber) { input := after.output.toList }).1 =
        [.ok (-2147483648), .ok 70, .error (.world .endOfInput)] ∧
      (series (List.replicate 3 readNumber)
          { input := [0xC2, 0xA0, 0x2D, 0x32, 0x31, 0x34, 0x37, 0x34, 0x38, 0x33, 0x36, 0x34, 0x38,
            10, 10, 0x37, 0x30, 0x20, 10] }).1 =
        [.ok (-2147483648), .ok 70, .error (.world .endOfInput)] := by
  have sure : NeverFails ({} : Console).sink := ⟨rfl, rfl⟩
  obtain ⟨after, wrote, plain, reads⟩ :=
    reads_back_what_was_written rfl sure [-2147483648, 70]
  have least : numberLine (-2147483648) =
      [0x2D, 0x32, 0x31, 0x34, 0x37, 0x34, 0x38, 0x33, 0x36, 0x34, 0x38] ++ [10] := by
    decide +kernel
  have small : numberLine 70 = [0x37, 0x30] ++ [10] := by decide +kernel
  have cut : lines after.output.toList = [-2147483648, 70].map numberLine := by
    have output := congrArg (fun outcome => outcome.2.output.toList)
      (wrote.symm.trans (series_writeNumber sure [-2147483648, 70]))
    rw [← lines_numberLines]
    exact congrArg lines (output.trans (by simp))
  refine ⟨after, wrote, reads { input := after.output.toList } rfl sure plain, ?_⟩
  refine reads { input := _ } rfl sure ?_
  rw [cut]
  have first : ∀ c ∈ [Char.ofNat 0xA0], Text.isBlank c := List.forall_mem_singleton.mpr rfl
  have second : ∀ c ∈ ['\n', ' '], Text.isBlank c :=
    List.forall_mem_cons.mpr ⟨rfl, List.forall_mem_singleton.mpr rfl⟩
  exact .line [Char.ofNat 0xA0] [] least first (.line ['\n'] [' '] small second (.last [] nofun))

end Console

end BytecodeMachine
