import BytecodeMachine.Console
import BytecodeMachine.Proofs.Simulation
/-!
# Reading words

A console takes its input line by line and hands it out word by word. Over a well-formed input
the lines do not matter: what can be asked for is the sequence of the words, those of the
current line and those of the input behind it. Consoles that have the same words left, the same
output and the same sink do the same, whatever their lines are.

A line feed ends a line, a character and a word, so the three ways to cut an input agree. Over
an ill-formed input they do not, since a line is refused as a whole.
-/
namespace BytecodeMachine

namespace Utf8

/-- The bytes that continue a sequence are none that stand for themselves. It is read off the table
of lead bytes, each row of which has its own least byte. -/
theorem lead?_lower {b : UInt8} {lead : Lead} (leads : lead? b = some lead) :
    0x80 ≤ lead.lower := by
  unfold lead? at leads
  repeat' split at leads
  all_goals first
    | exact absurd leads.symm (Option.some_ne_none lead)
    | rw [← Option.some.inj leads]
      dsimp only
      decide

/-- A byte that stands for itself ends every sequence before it. So what lies behind it has no part
in the step, and the step leaves all of it. -/
theorem continuation_append {bits : Nat} {lower upper : UInt8} {missing : Nat} {xs : List UInt8}
    {b : UInt8} (rest : List UInt8) (bound : 0x80 ≤ lower) (single : b < 0x80) :
    continuation bits lower upper missing (xs ++ b :: rest) =
      ((continuation bits lower upper missing xs).1,
        (continuation bits lower upper missing xs).2 ++ b :: rest) := by
  fun_induction continuation bits lower upper missing xs with
  | case1 bits lower upper bytes => simp [continuation]
  | case2 bits lower upper missing =>
    have outside : ¬ (lower ≤ b ∧ b ≤ upper) := fun inside =>
      absurd (UInt8.le_trans bound inside.1) (UInt8.not_le.mpr single)
    simp [continuation, outside]
  | case3 bits lower upper missing c bytes fits later =>
    simpa [continuation, fits] using later (by decide)
  | case4 bits lower upper missing c bytes fits => simp [continuation, fits]

/-- Taking a character off the front does not look past a byte below 0x80: what comes behind it is
still there, and the character is the same with or without it. -/
theorem next_append {a b : UInt8} (xs rest : List UInt8) (single : b < 0x80) :
    next a (xs ++ b :: rest) = ((next a xs).1, (next a xs).2 ++ b :: rest) := by
  unfold next
  split
  · rfl
  · split
    · rfl
    · next lead leads =>
      rw [continuation_append rest (lead?_lower leads) single]

/-- Behind a line feed decoding starts anew. Proof: induction along the decoder on what stands
before the line feed. A character begun there ends there, since no sequence takes a byte below 0x80
as a following one. -/
theorem decode?_append_feed (xs rest : List UInt8) :
    decode? (xs ++ 10 :: rest) =
      (decode? xs).bind fun cs => (decode? rest).map fun ds => cs ++ '\n' :: ds := by
  induction xs using decode?.induct with
  | case1 =>
    rw [List.nil_append, decode?, decode?]
    have feed : next 10 rest = (some '\n', rest) := by
      rw [next, if_pos (by decide)]
      rfl
    rw [feed]
    rfl
  | case2 b xs shorter ill =>
    rw [List.cons_append, decode?, decode?, next_append xs rest (by decide), ill]
    rfl
  | case3 b xs shorter c found later =>
    -- the first character ends before the line feed, so what is behind it is decoded alike
    rw [List.cons_append, decode?, decode?, next_append xs rest (by decide), found]
    dsimp only
    rw [later]
    cases decode? (next b xs).2 with
    | none => rfl
    | some cs => cases decode? rest <;> rfl

end Utf8

namespace Text

/-- A blank ends the word that is being collected. So the words up to it are those of the text
before it, and the ones behind it begin anew. -/
theorem go_append_blank {b : Char} (current : List Char) (as ds : List Char)
    (blank : isBlank b = true) :
    words.go current (as ++ b :: ds) = words.go current as ++ words ds := by
  induction as generalizing current with
  | nil =>
    rw [List.nil_append, words.go, words.go, if_pos blank]
    split <;> rfl
  | cons a as later =>
    simp only [List.cons_append, words.go, later]
    split
    · split <;> rfl
    · rfl

/-- A blank ends a word, so the words on both sides of it are all the words. -/
theorem words_append_blank {b : Char} (as ds : List Char) (blank : isBlank b = true) :
    words (as ++ b :: ds) = words as ++ words ds := go_append_blank [] as ds blank

end Text

namespace Console

open BytecodeMachine.Action

/-- A line is the whole input or ends with the first line feed. What is dropped in front of the
rest decides it: nothing is left, or what is left begins with the line feed. -/
theorem takeLine_cases (input : List UInt8) :
    takeLine input = (input, []) ∨
      ∃ line rest, input = line ++ 10 :: rest ∧ takeLine input = (line ++ [10], rest) := by
  have parts := input.takeWhile_append_dropWhile (p := (· != 10))
  unfold takeLine
  cases behind : input.dropWhile (· != 10) with
  | nil => exact .inl rfl
  | cons feed rest =>
    have ends : feed = 10 := by
      have kept := List.head?_dropWhile_not (· != 10) input
      simpa [behind] using kept
    rw [behind, ends] at parts
    rw [ends]
    exact .inr ⟨_, rest, parts.symm, rfl⟩

variable {input : List UInt8} {cs : List Char}

/-- A line of a well-formed input is well-formed, and no word goes on behind it. The line feed at
its end is a blank, at which the text falls apart both for the decoder and for words. -/
theorem takeLine_decoded (decoded : Utf8.decode? input = some cs) :
    ∃ as ds, Utf8.decode? (takeLine input).1 = some as ∧
      Utf8.decode? (takeLine input).2 = some ds ∧
      Text.words as ++ Text.words ds = Text.words cs := by
  obtain taken | ⟨line, rest, rfl, taken⟩ := takeLine_cases input
  · rw [taken]
    exact ⟨cs, [], decoded, by rw [Utf8.decode?], List.append_nil _⟩
  · rw [Utf8.decode?_append_feed] at decoded
    obtain ⟨as, first, decoded⟩ := Option.bind_eq_some_iff.mp decoded
    obtain ⟨ds, second, rfl⟩ := Option.map_eq_some_iff.mp decoded
    have ended : Utf8.decode? (line ++ [10]) = some (as ++ '\n' :: []) := by
      rw [Utf8.decode?_append_feed, first, Utf8.decode?]
      rfl
    rw [taken]
    refine ⟨_, ds, ended, second, ?_⟩
    rw [Text.words_append_blank as [] (by decide), Text.words_append_blank as ds (by decide)]
    exact congrArg (· ++ Text.words ds) (List.append_nil _)

/-- A line that decodes offers the words of its characters. -/
theorem lineWords_decoded (decoded : Utf8.decode? input = some cs) :
    lineWords input = .ok ((Text.words cs).map String.ofList) := by
  rw [lineWords, decoded]

/-- Reading a line of a well-formed input gives the first words of it, if it has any. Proof:
induction along the reader, which skips lines without words; such a line adds nothing to the words
of the input, so those behind it are all of them. -/
theorem readLine_decoded (decoded : Utf8.decode? input = some cs) :
    (Text.words cs = [] ∧ readLine input = (.error (.world .endOfInput), [])) ∨
      ∃ word more rest ds, readLine input = (.ok (word :: more), rest) ∧
        Utf8.decode? rest = some ds ∧
        word :: more ++ (Text.words ds).map String.ofList = (Text.words cs).map String.ofList := by
  induction input using readLine.induct generalizing cs with
  | case1 =>
    rw [Utf8.decode?] at decoded
    cases decoded
    exact .inl ⟨rfl, by rw [readLine]⟩
  | case2 b rest shorter blank later =>
    obtain ⟨as, ds, first, second, together⟩ := takeLine_decoded decoded
    rw [lineWords_decoded first, Except.ok.injEq, List.map_eq_nil_iff] at blank
    -- the line has no words, so those of the input are those behind it
    rw [blank, List.nil_append] at together
    rw [readLine, lineWords_decoded first, blank, ← together]
    exact later second
  | case3 b rest shorter filled =>
    obtain ⟨as, ds, first, second, together⟩ := takeLine_decoded decoded
    rw [lineWords_decoded first] at filled
    rw [readLine, lineWords_decoded first, ← together, List.map_append]
    cases words : (Text.words as).map String.ofList with
    | nil => exact absurd (congrArg Except.ok words) filled
    | cons word more => exact .inr ⟨word, more, _, ds, rfl, second, rfl⟩

/-- The words that can be asked for, if the rest of the input is well-formed: those of the
current line and those behind it. -/
def wordsLeft? (console : Console) : Option (List String) :=
  (Utf8.decode? console.input).map fun cs =>
    console.pending ++ (Text.words cs).map String.ofList

variable {console : Console}

/-- With no words left, asking for one goes through all lines and comes to the end of the input. It
takes input while doing so, and there are still no words left. -/
theorem nextWord_of_no_words (left : console.wordsLeft? = some []) :
    ∃ rest, nextWord console = .error (.world .endOfInput) { console with input := rest } ∧
      wordsLeft? { console with input := rest } = some [] := by
  obtain ⟨cs, decoded, none⟩ := Option.map_eq_some_iff.mp left
  obtain ⟨pending, words⟩ := List.append_eq_nil_iff.mp none
  refine ⟨[], ?_, ?_⟩
  · obtain ⟨_, ended⟩ | ⟨word, more, _, _, _, _, some⟩ := readLine_decoded decoded
    · rw [nextWord, pending, ended]
    · rw [words] at some
      cases some
  · rw [wordsLeft?, Utf8.decode?, pending]
    rfl

/-- With words left, asking for one gives the first of them, whether it is pending or a few empty
lines away, and leaves the others. -/
theorem nextWord_of_words {word : String} {words : List String}
    (left : console.wordsLeft? = some (word :: words)) :
    ∃ rest pending, nextWord console = .ok word { console with input := rest, pending } ∧
      wordsLeft? { console with input := rest, pending } = some words := by
  obtain ⟨cs, decoded, offered⟩ := Option.map_eq_some_iff.mp left
  unfold nextWord
  cases given : console.pending with
  | cons first more =>
    rw [given] at offered
    cases offered
    refine ⟨console.input, more, rfl, ?_⟩
    rw [wordsLeft?, decoded]
    rfl
  | nil =>
    rw [given, List.nil_append] at offered
    obtain ⟨none, _⟩ | ⟨first, more, rest, ds, read, behind, together⟩ := readLine_decoded decoded
    · rw [none] at offered
      cases offered
    · rw [offered] at together
      cases together
      refine ⟨rest, more, by rw [read], ?_⟩
      rw [wordsLeft?, behind]
      rfl

/-- Two consoles that differ at most in how the words that are left lie in lines. -/
structure SameWords (first second : Console) : Prop where
  output : second.output = first.output
  sink : second.sink = first.sink
  words : ∃ left, first.wordsLeft? = some left ∧ second.wordsLeft? = some left

/-- Consoles with the same words left answer the same word, or come to the end alike. It does not
matter how far each has to go for it. -/
theorem simulates_nextWord : Simulates strict SameWords nextWord nextWord := by
  rintro first second ⟨output, sink, left, offers, offers'⟩
  unfold Tracks Ends
  cases left with
  | nil =>
    obtain ⟨rest, ended, none⟩ := nextWord_of_no_words offers
    obtain ⟨rest', ended', none'⟩ := nextWord_of_no_words offers'
    rw [ended]
    exact fun _ => ⟨_, ended', ⟨output, sink, [], none, none'⟩⟩
  | cons word words =>
    obtain ⟨rest, pending, given, later⟩ := nextWord_of_words offers
    obtain ⟨rest', pending', given', later'⟩ := nextWord_of_words offers'
    rw [given]
    exact ⟨_, given', ⟨output, sink, words, later, later'⟩⟩

/-- What a console takes of some bytes depends on its output and its sink alone. All are taken
where the sink has no bound, and otherwise as many as there is still room for. -/
theorem exists_taken (bytes : List UInt8) (console : Console) :
    ∃ taken : List UInt8, ∀ other : Console,
      other.output = console.output → other.sink = console.sink →
      write bytes other =
        if taken.length < bytes.length then
          .error (.world .outputFull) { other with output := other.output ++ taken }
        else .ok () { other with output := other.output ++ taken } := by
  refine ⟨console.sink.room.elim bytes fun room => bytes.take (room - console.output.size), ?_⟩
  intro other output sink
  simp only [write, sink, output]
  cases console.sink.room <;> rfl

/-- Writing looks at the output and the sink only, and these are the same on both sides. So both
consoles take the same bytes, and both refuse the others or neither does. -/
theorem simulates_write (bytes : List UInt8) :
    Simulates strict SameWords (write bytes) (write bytes) := by
  intro first second same
  obtain ⟨taken, writes⟩ := exists_taken bytes first
  have later : SameWords { first with output := first.output ++ taken }
      { second with output := second.output ++ taken } :=
    { same with output := congrArg (fun output : Array UInt8 => output ++ taken) same.output }
  unfold Tracks Ends
  rw [writes first rfl rfl, writes second same.output same.sink]
  by_cases short : taken.length < bytes.length
  · rw [if_pos short, if_pos short]
    exact fun _ => ⟨_, rfl, later⟩
  · rw [if_neg short, if_neg short]
    exact ⟨_, rfl, later⟩

/-- So does flushing. -/
theorem simulates_flush : Simulates strict SameWords flush flush := by
  intro first second same
  simp only [Tracks, Ends, flush, same.sink]
  by_cases refuses : first.sink.refusesFlush
  · rw [if_pos refuses, if_pos refuses]
    exact fun _ => ⟨second, rfl, same⟩
  · rw [if_neg refuses, if_neg refuses]
    exact ⟨second, rfl, same⟩

/-- Reading a number is the prompt, the flush, a word and its number, and the sides agree on each
of them. -/
theorem simulates_readNumber : Simulates strict SameWords readNumber readNumber :=
  ((simulates_write _).during _).bind fun _ => (simulates_flush.during _).bind fun _ =>
    simulates_nextWord.bind fun _ => simulates_answer (Answer.repeats_refl _)

/-- Writing one is writing and flushing. -/
theorem simulates_writeNumber (number : Int32) :
    Simulates strict SameWords (writeNumber number) (writeNumber number) :=
  ((simulates_write _).during _).bind fun _ => simulates_flush.during _

end Console

end BytecodeMachine
