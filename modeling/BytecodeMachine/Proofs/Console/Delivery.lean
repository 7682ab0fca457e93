import BytecodeMachine.Proofs.Action.Series
import BytecodeMachine.Proofs.Console
import BytecodeMachine.Proofs.Text.Utf8
/-!
# Every word is delivered once

What an input has to offer is a list: cut behind each line feed, a line that is UTF-8 offers its
words, and a line that is not offers one fault. Readings take from the front of this list, one
at a time, however the words lie in the lines. Behind its end there is only the end of the input.

A reading whose prompt is not accepted takes nothing.
-/
namespace BytecodeMachine

/-- The words are what lies between the blanks, where that is not empty. Proof: induction on the
characters, with the word begun so far, which both sides carry along reversed. -/
theorem Text.words_eq_splitOnP (cs : List Char) :
    Text.words cs = (cs.splitOnP Text.isBlank).filter fun word => !word.isEmpty := by
  have go (current : List Char) :
      words.go current cs =
        (cs.splitOnPPrepend isBlank current).filter fun word => !word.isEmpty := by
    induction cs generalizing current with
    | nil => cases current <;> simp [words.go, List.splitOnPPrepend]
    | cons c cs later =>
      by_cases blank : isBlank c
      · cases current <;> simp [words.go, List.splitOnPPrepend, blank, later]
      · simp [words.go, List.splitOnPPrepend, blank, later]
  exact go []

namespace Console

open BytecodeMachine.Action

/-- The lines of an input, each with the line feed that ends it. -/
def lines : List UInt8 → List (List UInt8)
  | [] => []
  | b :: rest =>
    if b = 10 then [b] :: lines rest
    else
      match lines rest with
      | [] => [[b]]
      | line :: later => (b :: line) :: later

/-- What a line offers: its words, or a fault if it is not UTF-8. -/
def offered (line : List UInt8) : List (Answer String) :=
  match Utf8.decode? line with
  | some cs =>
    ((cs.splitOnP Text.isBlank).filter fun word => !word.isEmpty).map fun word =>
      .ok (String.ofList word)
  | none => [.error (.during .readingInput (.world .illFormedInput))]

/-- What an input offers, line by line. -/
def contributions (input : List UInt8) : List (Answer String) := (lines input).flatMap offered

/-- What the reading with this number gives, counted from zero. -/
def delivered (input : List UInt8) (index : Nat) : Answer Int32 :=
  ((contributions input)[index]?.getD (.error (.world .endOfInput))) >>= parse

/-- The first line, byte by byte: it ends with a line feed, which belongs to it, or goes on with
the next byte. -/
theorem takeLine_cons (b : UInt8) (rest : List UInt8) :
    takeLine (b :: rest) =
      if b = 10 then ([b], rest) else (b :: (takeLine rest).1, (takeLine rest).2) := by
  unfold takeLine
  by_cases feed : b = 10
  · simp [feed]
  · have keeps : (b != 10) = true := by simpa using feed
    simp only [List.dropWhile_cons, List.takeWhile_cons, keeps, if_true, if_neg feed]
    cases rest.dropWhile (· != 10) <;> rfl

/-- Input that is not at its end has a first line, and the other lines are those of the rest. By
induction on the rest: a line feed ends the line, any other byte goes in front of the line behind
it. -/
theorem lines_cons (b : UInt8) (rest : List UInt8) :
    lines (b :: rest) = (takeLine (b :: rest)).1 :: lines (takeLine (b :: rest)).2 := by
  induction rest generalizing b with
  | nil => by_cases feed : b = 10 <;> simp [lines, takeLine, feed]
  | cons c rest later =>
    rw [lines, takeLine_cons, later]
    by_cases feed : b = 10
    · rw [if_pos feed, if_pos feed, later]
    · rw [if_neg feed, if_neg feed]

/-- What a line offers is the words it has, or the one failure of decoding it. -/
theorem offered_eq (line : List UInt8) :
    offered line = match lineWords line with
      | .ok words => words.map .ok
      | .error cause => [.error cause] := by
  unfold offered lineWords
  cases Utf8.decode? line with
  | none => rfl
  | some cs => simp [Text.words_eq_splitOnP]

/-- What input offers is what its first line offers, and then what the rest does. -/
theorem contributions_cons (b : UInt8) (rest : List UInt8) :
    contributions (b :: rest) =
      offered (takeLine (b :: rest)).1 ++ contributions (takeLine (b :: rest)).2 := by
  rw [contributions, lines_cons, List.flatMap_cons, contributions]

/-- Reading a line takes from the front of what the input offers: the words of the first line
that has any, or the first fault. -/
theorem readLine_eq (input : List UInt8) :
    (contributions input = [] ∧ readLine input = (.error (.world .endOfInput), [])) ∨
      (∃ cause rest, readLine input = (.error cause, rest) ∧
        contributions input = .error cause :: contributions rest) ∨
      ∃ word more rest, readLine input = (.ok (word :: more), rest) ∧
        contributions input = .ok word :: (more.map .ok ++ contributions rest) := by
  induction input using readLine.induct with
  | case1 => exact .inl ⟨rfl, by rw [readLine]⟩
  | case2 b rest shorter blank later =>
    -- a line without words offers nothing, so it is left to the lines behind it
    rw [readLine, blank, contributions_cons, offered_eq, blank]
    exact later
  | case3 b rest shorter filled =>
    refine .inr ?_
    rw [readLine, contributions_cons, offered_eq]
    cases found : lineWords (takeLine (b :: rest)).1 with
    | error cause => exact .inl ⟨cause, _, rfl, rfl⟩
    | ok words =>
      cases words with
      | nil => exact absurd found filled
      | cons word more => exact .inr ⟨word, more, _, rfl, rfl⟩

/-- What can still be had: the words of the current line, and what the input behind it offers. -/
def left (console : Console) : List (Answer String) :=
  console.pending.map .ok ++ contributions console.input

/-- The next word is the first of what is left, and leaves the others. A pending word is first;
otherwise a line is read, and what that gives is by the lemma above what the input offers first. -/
theorem nextWord_outcome (console : Console) :
    ∃ input pending,
      nextWord.outcome console =
        (console.left.head?.getD (.error (.world .endOfInput)), { console with input, pending }) ∧
      left { console with input, pending } = console.left.tail := by
  obtain ⟨input, pending, output, sink⟩ := console
  cases pending with
  | cons word more => exact ⟨input, more, rfl, rfl⟩
  | nil =>
    simp only [left, List.map_nil, List.nil_append, outcome, nextWord]
    obtain ⟨none, ended⟩ | ⟨cause, rest, read, offers⟩ | ⟨word, more, rest, read, offers⟩ :=
      readLine_eq input
    · rw [none, ended]
      exact ⟨[], [], rfl, rfl⟩
    · rw [offers, read]
      exact ⟨rest, [], rfl, rfl⟩
    · rw [offers, read]
      exact ⟨rest, more, rfl, rfl⟩

/-- Output that never fails. -/
def NeverFails (sink : Sink) : Prop :=
  sink.room = none ∧ sink.refusesFlush = false

variable {console : Console}

/-- Where output never fails, writing appends the bytes. -/
theorem write_of_neverFails (sure : NeverFails console.sink) (bytes : List UInt8) :
    write bytes console = .ok () { console with output := console.output ++ bytes } := by
  simp [write, sure.1]

/-- There flushing does nothing. -/
theorem flush_of_neverFails (sure : NeverFails console.sink) : flush console = .ok () console := by
  simp [flush, sure.2]

/-- A reading prompts, takes the first of what is left and leaves the others. Where output never
fails the prompt cannot end it, and what remains is the next word and its number. -/
theorem readNumber_outcome (sure : NeverFails console.sink) :
    ∃ input pending,
      readNumber.outcome console =
        ((console.left.head?.getD (.error (.world .endOfInput))) >>= parse,
          { console with input, pending, output := console.output ++ prompt }) ∧
      left { console with input, pending, output := console.output ++ prompt } =
        console.left.tail := by
  let prompted := { console with output := console.output ++ prompt }
  have written : (write prompt).during .writingPrompt console = .ok () prompted :=
    during_eq_ok_iff.mpr (write_of_neverFails sure prompt)
  have flushed : flush.during .flushingPrompt prompted = .ok () prompted :=
    during_eq_ok_iff.mpr (flush_of_neverFails sure)
  obtain ⟨input, pending, next, rest⟩ := nextWord_outcome prompted
  refine ⟨input, pending, ?_, rest⟩
  have same : prompted.left = console.left := rfl
  simp only [readNumber, outcome_bind, outcome_of_ok written, outcome_of_ok flushed, next, same]
  cases console.left.head?.getD (.error (.world .endOfInput)) with
  | ok word => exact outcome_answer _ _
  | error cause => rfl

/-- Readings take what is left in order, and each one prompts. Proof: induction on their number.
The first reading takes the head and leaves the tail, and the index of each later one is one less
there. -/
theorem series_readNumber (sure : NeverFails console.sink) (count : Nat) :
    (series (List.replicate count readNumber) console).1 =
        (List.range count).map (fun index =>
          (console.left[index]?.getD (.error (.world .endOfInput))) >>= parse) ∧
      (series (List.replicate count readNumber) console).2.output =
        console.output ++ (List.replicate count prompt).flatten := by
  induction count generalizing console with
  | zero => exact ⟨rfl, by simp [series]⟩
  | succ count later =>
    obtain ⟨input, pending, read, rest⟩ := readNumber_outcome sure
    have after : NeverFails
        { console with input, pending, output := console.output ++ prompt }.sink := sure
    obtain ⟨answers, output⟩ := later after
    rw [List.replicate_succ, series_cons, read]
    dsimp only
    rw [answers, output, rest, List.range_succ_eq_map]
    refine ⟨by simp [List.head?_eq_getElem?], ?_⟩
    simp [List.replicate_succ, ← Array.toList_inj]

/-- The words that are pending, and the input behind them. -/
def unread (console : Console) : List String × List UInt8 := (console.pending, console.input)

/-- Writing takes nothing from the input, be it refused or not. What changes is the output, by as
many bytes as are taken, and both outcomes leave the rest of the console. -/
theorem keeps_write (bytes : List UInt8) : Keeps unread (write bytes) := by
  intro console
  obtain ⟨taken, writes⟩ := exists_taken bytes console
  unfold Ends
  rw [writes console rfl rfl]
  by_cases short : taken.length < bytes.length
  · rw [if_pos short]
    rfl
  · rw [if_neg short]
    rfl

/-- Neither does flushing. -/
theorem keeps_flush : Keeps unread flush := by
  intro console
  unfold Ends flush
  cases console.sink.refusesFlush <;> rfl

variable {s t : Console} {cause : Fault}

/-- If the prompt cannot be written, reading fails with that, and nothing has been read. -/
theorem readNumber_of_write_error (failed : write prompt console = .error cause t) :
    readNumber console = .error (.during .writingPrompt cause) t ∧ t.unread = console.unread := by
  refine ⟨?_, (keeps_write prompt).of_error failed⟩
  simp only [readNumber, bind, EStateM.bind, during, failed]

/-- If the prompt has been written and cannot be flushed, reading fails with that. Nothing has been
read either. -/
theorem readNumber_of_flush_error (written : write prompt console = .ok () s)
    (failed : flush s = .error cause t) :
    readNumber console = .error (.during .flushingPrompt cause) t ∧ t.unread = console.unread := by
  refine ⟨?_, (keeps_flush.of_error failed).trans ((keeps_write prompt).of_ok written)⟩
  simp only [readNumber, bind, EStateM.bind, during, written, failed]

/-- If output never fails, any number of readings give what the lines of the input offer, each
thing once and in order, and the end of the input behind it; every reading writes a prompt. A
line is UTF-8 if it consists of the encodings of some characters. A reading whose prompt is not
written or not flushed leaves the words and the input alone. -/
theorem reads_every_word_once :
    (∀ line cs, Utf8.decode? line = some cs ↔ cs.flatMap String.utf8EncodeChar = line) ∧
    (∀ console : Console, console.pending = [] → NeverFails console.sink → ∀ count,
      (series (List.replicate count readNumber) console).1 =
          (List.range count).map (delivered console.input) ∧
        (series (List.replicate count readNumber) console).2.output =
          console.output ++ (List.replicate count prompt).flatten) ∧
    ∀ console cause t,
      (write prompt console = .error cause t →
        readNumber console = .error (.during .writingPrompt cause) t ∧
          t.unread = console.unread) ∧
      ∀ s, write prompt console = .ok () s → flush s = .error cause t →
        readNumber console = .error (.during .flushingPrompt cause) t ∧
          t.unread = console.unread := by
  refine ⟨fun _ _ => Utf8.decode?_eq_some_iff, ?_, ?_⟩
  · intro console none sure count
    have whole : console.left = contributions console.input := by
      rw [left, none, List.map_nil, List.nil_append]
    have given := series_readNumber sure count
    rw [whole] at given
    exact given
  · intro console cause t
    exact ⟨readNumber_of_write_error, fun s => readNumber_of_flush_error⟩

/-- Several words on a line, one of them no number, a line that is not UTF-8, and the end; a sink
with room for half a prompt; and a sink that is not flushed while words are pending. -/
theorem reads_every_word_once_mixedLines :
    Utf8.decode? [0xC3, 0xA9] = some ['é'] ∧
    (series (List.replicate 5 readNumber)
        { input := [0x31, 0x32, 0x20, 0x78, 10, 0xFF, 10, 10, 0x37] }).1 =
      [.ok 12, .error (.during (.readingToken "x") (.number .invalidDigit)),
        .error (.during .readingInput (.world .illFormedInput)), .ok 7,
        .error (.world .endOfInput)] ∧
    (∃ t, readNumber { input := [0x37], sink := { room := some 1 } } =
        .error (.during .writingPrompt (.world .outputFull)) t ∧ t.unread = ([], [0x37])) ∧
    ∃ t, readNumber { pending := ["7"], sink := { refusesFlush := true } } =
        .error (.during .flushingPrompt (.world .flushRefused)) t ∧ t.unread = (["7"], []) := by
  obtain ⟨decodes, delivers, spares⟩ := reads_every_word_once
  refine ⟨(decodes _ _).mpr (by decide), ?_, ?_, ?_⟩
  · have first : Utf8.decode? [0x31, 0x32, 0x20, 0x78, 10] = some ['1', '2', ' ', 'x', '\n'] :=
      (decodes _ _).mpr (by decide)
    have second : Utf8.decode? [0xFF, 10] = none := by
      rw [Utf8.decode?]
      rfl
    have third : Utf8.decode? [10] = some ['\n'] := (decodes _ _).mpr (by decide)
    have fourth : Utf8.decode? [0x37] = some ['7'] := (decodes _ _).mpr (by decide)
    have offers : contributions [0x31, 0x32, 0x20, 0x78, 10, 0xFF, 10, 10, 0x37] =
        [.ok "12", .ok "x", .error (.during .readingInput (.world .illFormedInput)), .ok "7"] := by
      have cut : lines [0x31, 0x32, 0x20, 0x78, 10, 0xFF, 10, 10, 0x37] =
          [[0x31, 0x32, 0x20, 0x78, 10], [0xFF, 10], [10], [0x37]] := by decide
      simp only [contributions, cut, List.flatMap_cons, List.flatMap_nil, offered, first, second,
        third, fourth]
      rfl
    rw [(delivers { input := [0x31, 0x32, 0x20, 0x78, 10, 0xFF, 10, 10, 0x37] }
      rfl ⟨rfl, rfl⟩ 5).1]
    unfold delivered
    rw [offers]
    rfl
  · exact ⟨_, (spares { input := [0x37], sink := { room := some 1 } } _ _).1 rfl⟩
  · exact ⟨_, (spares { pending := ["7"], sink := { refusesFlush := true } } _ _).2 _ rfl rfl⟩

end Console

end BytecodeMachine
