import BytecodeMachine.Listing
import BytecodeMachine.Proofs.Action
import BytecodeMachine.Proofs.Text.Decimal
import BytecodeMachine.Proofs.Text.Hexadecimal
import Mathlib.Data.List.Basic
/-!
# Listings are read back

A line of a listing begins with a keyword, and what stands behind the tab after it is told by the
keyword, but for calls, where the built-in functions are told by their names. No operand has blanks
in it, so those that stand one behind another are told apart by the blanks between them. The
contents of a string may have blanks, and tabs, but only a number stands behind them.

So there is a reading of lines, which gives the instruction back. Of a string operand it gives the
contents, since its offset is not shown. That two instructions are shown alike only if they are
the same, up to that, is not seen by comparing them two by two: they are both what the line is read
as.
-/
namespace BytecodeMachine

/-! ### Operands -/

/-- Reads the sign of an operator. -/
def Operator.read? (cs : List Char) : Option Operator :=
  match String.ofList cs with
  | "+" => some .add | "-" => some .sub | "*" => some .mul | "/" => some .div | "%" => some .mod
  | "<" => some .lt | "<=" => some .le | ">" => some .gt | ">=" => some .ge
  | "==" => some .eq | "!=" => some .ne | "&&" => some .and | "!!" => some .or
  | _ => none

/-- Operators are told apart by their symbols. -/
theorem Operator.read?_symbol (operator : Operator) :
    read? operator.symbol.toList = some operator := by
  cases operator <;> rfl

/-- Reads the name of a pattern. -/
def Pattern.read? (cs : List Char) : Option Pattern :=
  match String.ofList cs with
  | "=str" => some .sameString | "#string" => some .string | "#array" => some .array
  | "#sexp" => some .aggregate | "#ref" => some .reference | "#val" => some .number
  | "#fun" => some .closure
  | _ => none

/-- Patterns are told apart by their names. -/
theorem Pattern.read?_mnemonic (pattern : Pattern) :
    read? pattern.mnemonic.toList = some pattern := by
  cases pattern <;> rfl

/-- The storage with a letter. -/
def Storage.ofLetter? : Char → Option Storage
  | 'G' => some .globals | 'L' => some .locals | 'A' => some .arguments | 'C' => some .captures
  | _ => none

/-- The letters tell the storages apart. -/
theorem Storage.exists_letter (storage : Storage) :
    ∃ c, storage.letter.toList = [c] ∧ ofLetter? c = some storage ∧ c ≠ ' ' := by
  cases storage <;> exact ⟨_, rfl, rfl, by decide⟩

namespace Variable

/-- Reads a letter and an index in parentheses. -/
def read? : List Char → Option Variable
  | letter :: '(' :: index => do
    return ⟨← Storage.ofLetter? letter, ← Decimal.readNumber? index.dropLast⟩
  | _ => none

/-- A variable is written as the letter of its storage and its index in brackets. -/
theorem toList_text (name : Variable) :
    name.text.toList =
      name.storage.letter.toList ++ '(' :: ((Decimal.text name.index.toInt).toList ++ [')']) := by
  simp [text]

/-- It is read back: the letter tells the storage, and the numeral between the brackets is read as
the index. -/
theorem read?_text (name : Variable) : read? name.text.toList = some name := by
  obtain ⟨c, letter, found, _⟩ := name.storage.exists_letter
  rw [toList_text, letter]
  simp [read?, found, Decimal.readNumber?_text]

/-- No blank stands in a variable, so blanks can separate them. -/
theorem blank_notMem_text (name : Variable) : ' ' ∉ name.text.toList := by
  obtain ⟨c, letter, _, other⟩ := name.storage.exists_letter
  rw [toList_text, letter]
  simp [other.symm, Decimal.blank_notMem_text]

end Variable

/-! ### Lines -/

namespace Listing

open Decimal Hexadecimal

/-- What a line shows: the contents of a string operand, and everything else as it is. -/
inductive Shown
  | string (contents : String)
  | aggregate (name : String) (arity : Int32)
  | matchAggregate (name : String) (arity : Int32)
  /-- The instruction has no string operand. -/
  | whole (instruction : Instruction)
deriving DecidableEq, Repr

/-- Reads an operand and a number, with a blank between them. -/
def readPair? {α β : Type} (read? : List Char → Option α) (make : α → Int32 → β)
    (operands : List Char) : Option β :=
  match operands.splitOn ' ' with
  | [first, second] => return make (← read? first) (← readNumber? second)
  | _ => none

/-- Reads the contents of a string and a number. The last blank is the one between them. -/
def readNamed? {β : Type} (make : String → Int32 → β) (operands : List Char) : Option β := do
  let words := operands.splitOn ' '
  let arity ← readNumber? (← words.getLast?)
  return make (String.ofList ([' '].intercalate words.dropLast)) arity

def readClosure? (operands : List Char) : Option Instruction :=
  match operands.splitOn ' ' with
  | [] => none
  | target :: captured =>
    return .closure (← readAddress? target) (← captured.mapM Variable.read?)

/-- Reads the name of a function that is built in, and the length for the one that takes it from
the code. -/
def readBuiltin? (operands : List Char) : Option Instruction :=
  match (operands.splitOn '\t').map String.ofList with
  | ["Lread"] => some .readNumber
  | ["Lwrite"] => some .writeNumber
  | ["Llength"] => some .length
  | ["Lstring"] => some .print
  | ["Barray", length] => (readNumber? length.toList).map .array
  | _ => none

/-- Reads what is called: a function that has an address, which begins with a zero, or one that is
built in. -/
def readCall? (operands : List Char) : Option Instruction :=
  match operands with
  | '0' :: _ => readPair? readAddress? .call operands
  | _ => readBuiltin? operands

/-- Reads the operands of an instruction that has no string operand. -/
def readWhole? (keyword : String) (operands : List Char) : Option Instruction :=
  match keyword with
  | "BINOP" => (Operator.read? operands).map .binary
  | "CONST" => (readNumber? operands).map .constant
  | "STI" => some .storeThrough
  | "STA" => some .storeElement
  | "JMP" => (readAddress? operands).map .jump
  | "END" => some .leave
  | "RET" => some .ret
  | "DROP" => some .drop
  | "DUP" => some .duplicate
  | "SWAP" => some .swap
  | "ELEM" => some .element
  | "LD" => (Variable.read? operands).map .load
  | "LDA" => (Variable.read? operands).map .loadPlace
  | "ST" => (Variable.read? operands).map .store
  | "CJMPz" => (readAddress? operands).map .jumpIfZero
  | "CJMPnz" => (readAddress? operands).map .jumpUnlessZero
  | "BEGIN" => readPair? readNumber? .enter operands
  | "CBEGIN" => readPair? readNumber? .enterClosure operands
  | "CLOSURE" => readClosure? operands
  | "CALLC" => (readNumber? operands).map .callClosure
  | "CALL" => readCall? operands
  | "ARRAY" => (readNumber? operands).map .matchArray
  | "FAIL" => readPair? readNumber? .failure operands
  | "LINE" => (readNumber? operands).map .line
  | "PATT" => (Pattern.read? operands).map .test
  | "<end>" => some .stop
  | _ => none

def readOperands? (keyword : String) (operands : List Char) : Option Shown :=
  match keyword with
  | "STRING" => some (.string (String.ofList operands))
  | "SEXP" => readNamed? .aggregate operands
  | "TAG" => readNamed? .matchAggregate operands
  | _ => (readWhole? keyword operands).map .whole

/-- Reads a line. A keyword without operands is not followed by a tab. -/
def read? (line : List Char) : Option Shown :=
  match line.splitOn '\t' with
  | [] => none
  | keyword :: operands => readOperands? (String.ofList keyword) (['\t'].intercalate operands)

/-- The characters of two texts with a blank in between. -/
theorem toList_blank (front behind : String) :
    (front ++ " " ++ behind).toList = front.toList ++ ' ' :: behind.toList := by
  simp

/-- The keyword is taken off, and what is left is two texts with a blank in between. -/
theorem append_pair (keyword first second : String) :
    keyword ++ first ++ " " ++ second = keyword ++ (first ++ " " ++ second) := by
  simp only [String.append_assoc]

section Operands

variable {α β : Type} {read : List Char → Option α} {a : α}

/-- The first blank is the one between the operands. The first operand has none and neither has a
numeral, so splitting at blanks gives these two words. -/
theorem readPair?_append (make : α → Int32 → β) {first : String}
    (known : read first.toList = some a)
    (oneWord : ' ' ∉ first.toList) (number : Int32) :
    readPair? read make (first ++ " " ++ text number.toInt).toList = some (make a number) := by
  have words : (first ++ " " ++ text number.toInt).toList.splitOn ' ' =
      [first.toList, (text number.toInt).toList] := by
    rw [toList_blank, List.splitOn_append_cons_self_of_not_mem oneWord,
      List.splitOn_eq_singleton (blank_notMem_text _)]
  rw [readPair?, words]
  simp [known, readNumber?_text]

/-- The last blank is the one between the operands, whatever is in the name. -/
theorem readNamed?_append (make : String → Int32 → β) (name : String) (number : Int32) :
    readNamed? make (name ++ " " ++ text number.toInt).toList = some (make name number) := by
  have words : (name ++ " " ++ text number.toInt).toList.splitOn ' ' =
      name.toList.splitOn ' ' ++ [(text number.toInt).toList] := by
    rw [toList_blank, List.splitOn_append_cons_self,
      List.splitOn_eq_singleton (blank_notMem_text _)]
  rw [readNamed?, words]
  simp [readNumber?_text, List.intercalate_splitOn]

/-- Splitting at blanks gives the first text and the captured variables, each on its own: none of
them has a blank in it. By induction on the variables. -/
theorem splitOn_captures {first : List Char} (oneWord : ' ' ∉ first) (captured : List Variable) :
    (first ++ captured.flatMap fun name => ' ' :: name.text.toList).splitOn ' ' =
      first :: captured.map fun name => name.text.toList := by
  induction captured generalizing first with
  | nil => rw [List.flatMap_nil, List.append_nil, List.splitOn_eq_singleton oneWord, List.map_nil]
  | cons name rest later =>
    rw [List.flatMap_cons, List.cons_append, List.splitOn_append_cons_self_of_not_mem oneWord,
      later name.blank_notMem_text, List.map_cons]

/-- A line of a closure is split at blanks into its address and its variables, and each of them is
read back. -/
theorem readClosure?_captures (target : Int32) (captured : List Variable) :
    readClosure? (address target ++
      String.join (captured.map fun name => " " ++ name.text)).toList =
        some (.closure target captured) := by
  have joined : (String.join (captured.map fun name => " " ++ name.text)).toList =
      captured.flatMap fun name => ' ' :: name.text.toList := by
    rw [String.toList_join, List.flatMap_map]
    exact congrArg (captured.flatMap ·) (funext fun name => String.toList_append)
  have captures : (captured.map fun name => name.text.toList).mapM Variable.read? =
      some captured := by
    have each : (fun name : Variable => Variable.read? name.text.toList) =
        fun name => pure (id name) := funext Variable.read?_text
    rw [List.mapM_map, Function.comp_def, each, List.mapM_pure, List.map_id]
    rfl
  rw [readClosure?, String.toList_append, joined, splitOn_captures (blank_notMem_address target)]
  simp [readAddress?_address, captures]

/-- An address begins with a zero, and no name of a function does. -/
theorem readCall?_call (target arguments : Int32) :
    readCall? (address target ++ " " ++ text arguments.toInt).toList =
      some (.call target arguments) := by
  have pair := readPair?_append Instruction.call (readAddress?_address target)
    (blank_notMem_address target) arguments
  rw [toList_blank, toList_address] at pair ⊢
  exact pair

/-- The call that makes an array is told from the others by its keyword, and its length is read as
a numeral. -/
theorem readCall?_array (length : Int32) :
    readCall? ("Barray\t" ++ text length.toInt).toList = some (.array length) := by
  have line : ("Barray\t" ++ text length.toInt).toList =
      "Barray".toList ++ '\t' :: (text length.toInt).toList := by simp
  have oneWord : '\t' ∉ (text length.toInt).toList := notMem_text (by decide) (by decide) _
  have words : (("Barray\t" ++ text length.toInt).toList.splitOn '\t').map String.ofList =
      ["Barray", text length.toInt] := by
    rw [line, List.splitOn_append_cons_self_of_not_mem (by decide),
      List.splitOn_eq_singleton oneWord]
    simp
  have builtin : readBuiltin? ("Barray\t" ++ text length.toInt).toList = some (.array length) := by
    rw [readBuiltin?, words]
    exact congrArg (Option.map Instruction.array) (readNumber?_text length)
  rw [line] at builtin ⊢
  exact builtin

end Operands

section Lines

variable {instruction : Instruction} {operands : String}

/-- A keyword is the part of the line before the first tab. -/
theorem read?_append (keyword : String) (oneWord : '\t' ∉ keyword.toList) :
    read? (keyword ++ "\t" ++ operands).toList = readOperands? keyword operands.toList := by
  have line : (keyword ++ "\t" ++ operands).toList =
      keyword.toList ++ '\t' :: operands.toList := by simp
  rw [read?, line, List.splitOn_append_cons_self_of_not_mem oneWord]
  dsimp only
  rw [List.intercalate_splitOn, String.ofList_toList]

/-- A line with a keyword, the contents of a string and a number. -/
theorem read?_named (keyword : String) {make : String → Int32 → Shown}
    (shape : ∀ operands, readOperands? keyword operands = readNamed? make operands)
    (oneWord : '\t' ∉ keyword.toList) (name : String) (number : Int32) :
    read? (keyword ++ "\t" ++ name ++ " " ++ text number.toInt).toList =
      some (make name number) := by
  rw [append_pair, read?_append keyword oneWord, shape, readNamed?_append]

/-- A line with a keyword whose operands are read by `read`. -/
theorem read?_whole (keyword : String) {read : List Char → Option Instruction}
    (shape : ∀ operands, readOperands? keyword operands = (read operands).map .whole)
    (oneWord : '\t' ∉ keyword.toList) (known : read operands.toList = some instruction) :
    read? (keyword ++ "\t" ++ operands).toList = some (.whole instruction) := by
  rw [read?_append keyword oneWord, shape, known]
  rfl

/-- A line with a keyword and one operand. -/
theorem read?_one {α : Type} (keyword : String) {read : List Char → Option α}
    {make : α → Instruction} {a : α}
    (shape : ∀ operands, readOperands? keyword operands = ((read operands).map make).map .whole)
    (oneWord : '\t' ∉ keyword.toList) (known : read operands.toList = some a) :
    read? (keyword ++ "\t" ++ operands).toList = some (.whole (make a)) :=
  read?_whole keyword shape oneWord (congrArg (Option.map make) known)

/-- A line with a keyword and two numbers. -/
theorem read?_pair (keyword : String) {make : Int32 → Int32 → Instruction}
    (shape : ∀ operands, readOperands? keyword operands =
      (readPair? readNumber? make operands).map .whole)
    (oneWord : '\t' ∉ keyword.toList) (first second : Int32) :
    read? (keyword ++ "\t" ++ Instruction.decimalPair first second).toList =
      some (.whole (make first second)) :=
  read?_whole keyword shape oneWord
    (readPair?_append make (readNumber?_text first) (blank_notMem_text _) second)

end Lines

/-- What is shown of the instructions of an image. -/
inductive Shows (image : Image) : Shown → Instruction → Prop
  | string {offset : Int32} {contents : String} (there : image.textAt offset = .ok contents) :
      Shows image (.string contents) (.string offset)
  | aggregate {offset arity : Int32} {name : String} (there : image.textAt offset = .ok name) :
      Shows image (.aggregate name arity) (.aggregate offset arity)
  | matchAggregate {offset arity : Int32} {name : String}
      (there : image.textAt offset = .ok name) :
      Shows image (.matchAggregate name arity) (.matchAggregate offset arity)
  | whole {instruction : Instruction} : Shows image (.whole instruction) instruction

/-- What is read in the line of an instruction is what is shown of it. Proof: by cases on the
instruction. The keyword is told from all others, and behind it the operands are read by the lemmas
on numerals, addresses and variables; names are taken as they stand. -/
theorem mnemonic_reads (image : Image) (instruction : Instruction) :
    (instruction.mnemonic image).Ends
      (fun line => ∃ s, read? line.toList = some s ∧ Shows image s instruction)
      fun _ => True := by
  cases instruction with
  | binary operator =>
    exact ⟨_, read?_one "BINOP" (fun _ => rfl) (by decide) operator.read?_symbol, .whole⟩
  | constant number =>
    exact ⟨_, read?_one "CONST" (fun _ => rfl) (by decide) (readNumber?_text number), .whole⟩
  | string offset =>
    rw [Instruction.mnemonic]
    cases there : image.textAt offset with
    | error cause => trivial
    | ok contents =>
      have known : readOperands? "STRING" contents.toList = some (.string contents) := by
        rw [readOperands?, String.ofList_toList]
      exact ⟨_, (read?_append "STRING" (by decide)).trans known, .string there⟩
  | aggregate offset arity =>
    rw [Instruction.mnemonic]
    cases there : image.textAt offset with
    | error cause => trivial
    | ok name =>
      exact ⟨_, read?_named "SEXP" (fun _ => rfl) (by decide) name arity, .aggregate there⟩
  | storeThrough => exact ⟨_, rfl, .whole⟩
  | storeElement => exact ⟨_, rfl, .whole⟩
  | jump target =>
    exact ⟨_, read?_one "JMP" (fun _ => rfl) (by decide) (readAddress?_address target), .whole⟩
  | leave => exact ⟨_, rfl, .whole⟩
  | ret => exact ⟨_, rfl, .whole⟩
  | drop => exact ⟨_, rfl, .whole⟩
  | duplicate => exact ⟨_, rfl, .whole⟩
  | swap => exact ⟨_, rfl, .whole⟩
  | element => exact ⟨_, rfl, .whole⟩
  | load source =>
    exact ⟨_, read?_one "LD" (fun _ => rfl) (by decide) source.read?_text, .whole⟩
  | loadPlace source =>
    exact ⟨_, read?_one "LDA" (fun _ => rfl) (by decide) source.read?_text, .whole⟩
  | store target =>
    exact ⟨_, read?_one "ST" (fun _ => rfl) (by decide) target.read?_text, .whole⟩
  | jumpIfZero target =>
    exact ⟨_, read?_one "CJMPz" (fun _ => rfl) (by decide) (readAddress?_address target), .whole⟩
  | jumpUnlessZero target =>
    exact ⟨_, read?_one "CJMPnz" (fun _ => rfl) (by decide) (readAddress?_address target), .whole⟩
  | enter arguments locals =>
    exact ⟨_, read?_pair "BEGIN" (fun _ => rfl) (by decide) arguments locals, .whole⟩
  | enterClosure arguments locals =>
    exact ⟨_, read?_pair "CBEGIN" (fun _ => rfl) (by decide) arguments locals, .whole⟩
  | closure target captured =>
    rw [Instruction.mnemonic, String.append_assoc]
    exact ⟨_, read?_whole "CLOSURE" (fun _ => rfl) (by decide)
      (readClosure?_captures target captured), .whole⟩
  | callClosure arguments =>
    exact ⟨_, read?_one "CALLC" (fun _ => rfl) (by decide) (readNumber?_text arguments), .whole⟩
  | call target arguments =>
    rw [Instruction.mnemonic, append_pair]
    exact ⟨_, read?_whole "CALL" (fun _ => rfl) (by decide) (readCall?_call target arguments),
      .whole⟩
  | matchAggregate offset arity =>
    rw [Instruction.mnemonic]
    cases there : image.textAt offset with
    | error cause => trivial
    | ok name =>
      exact ⟨_, read?_named "TAG" (fun _ => rfl) (by decide) name arity, .matchAggregate there⟩
  | matchArray count =>
    exact ⟨_, read?_one "ARRAY" (fun _ => rfl) (by decide) (readNumber?_text count), .whole⟩
  | failure row column =>
    exact ⟨_, read?_pair "FAIL" (fun _ => rfl) (by decide) row column, .whole⟩
  | line number =>
    exact ⟨_, read?_one "LINE" (fun _ => rfl) (by decide) (readNumber?_text number), .whole⟩
  | test pattern =>
    exact ⟨_, read?_one "PATT" (fun _ => rfl) (by decide) pattern.read?_mnemonic, .whole⟩
  | readNumber => exact ⟨_, rfl, .whole⟩
  | writeNumber => exact ⟨_, rfl, .whole⟩
  | length => exact ⟨_, rfl, .whole⟩
  | print => exact ⟨_, rfl, .whole⟩
  | array count =>
    have line : "CALL\tBarray\t" ++ text count.toInt =
        "CALL\t" ++ ("Barray\t" ++ text count.toInt) :=
      @String.append_assoc "CALL\t" "Barray\t" _
    rw [Instruction.mnemonic, line]
    exact ⟨_, read?_whole "CALL" (fun _ => rfl) (by decide) (readCall?_array count), .whole⟩
  | stop => exact ⟨_, rfl, .whole⟩

end Listing

variable {image : Image} {instruction other : Instruction} {text : String}

/-- Of two instructions that are shown alike the same is shown. There is one reading of the line,
and what it gives is shown by both of them. -/
theorem Instruction.exists_shows (shown : instruction.mnemonic image = .ok text)
    (alike : other.mnemonic image = .ok text) :
    ∃ s, Listing.Shows image s instruction ∧ Listing.Shows image s other := by
  have first := Listing.mnemonic_reads image instruction
  have second := Listing.mnemonic_reads image other
  rw [shown] at first
  rw [alike] at second
  obtain ⟨s, read, shows⟩ := first
  obtain ⟨s', read', shows'⟩ := second
  cases read.symm.trans read'
  exact ⟨s, shows, shows'⟩

/-- The listing determines the instructions. Instructions that an image shows by the same line are
the same, or both are a string, both an aggregate, or both a match of an aggregate, the latter two
with the same arity; the offsets of the string may then differ, and both are shown by the contents.
Conversely all of these are shown by the same line. -/
theorem lines_determine_instructions (image : Image) (instruction other : Instruction)
    (text : String) (shown : instruction.mnemonic image = .ok text) :
    other.mnemonic image = .ok text ↔
      other = instruction ∨
      (∃ offset offset', instruction = .string offset ∧ other = .string offset' ∧
        image.textAt offset' = image.textAt offset) ∨
      (∃ offset offset' arity, instruction = .aggregate offset arity ∧
        other = .aggregate offset' arity ∧ image.textAt offset' = image.textAt offset) ∨
      ∃ offset offset' arity, instruction = .matchAggregate offset arity ∧
        other = .matchAggregate offset' arity ∧ image.textAt offset' = image.textAt offset := by
  constructor
  · intro alike
    obtain ⟨s, shows, shows'⟩ := Instruction.exists_shows shown alike
    cases shows with
    | string there =>
      cases shows' with
      | string there' =>
        exact .inr (.inl ⟨_, _, rfl, rfl, there'.trans there.symm⟩)
    | aggregate there =>
      cases shows' with
      | aggregate there' =>
        exact .inr (.inr (.inl ⟨_, _, _, rfl, rfl, there'.trans there.symm⟩))
    | matchAggregate there =>
      cases shows' with
      | matchAggregate there' =>
        exact .inr (.inr (.inr ⟨_, _, _, rfl, rfl, there'.trans there.symm⟩))
    | whole =>
      cases shows' with
      | whole => exact .inl rfl
  · rintro (rfl | ⟨offset, offset', rfl, rfl, same⟩ | ⟨offset, offset', arity, rfl, rfl, same⟩ |
      ⟨offset, offset', arity, rfl, rfl, same⟩)
    · exact shown
    all_goals
      rw [← shown, Instruction.mnemonic, Instruction.mnemonic, same]

/-- An image with one string twice. It looks like a string and a number with a blank between. -/
def sameTwice : Image :=
  { strings := #[0x61, 0x20, 0x31, 0, 0x61, 0x20, 0x31, 0], publics := [], code := #[],
    globals := 0 }

/-- An aggregate is shown as another one whose name has the same contents, and not as a match, nor
as one of another arity. -/
theorem lines_determine_instructions_sameTwice :
    (Instruction.aggregate 0 2).mnemonic sameTwice = .ok "SEXP\ta 1 2" ∧
      (Instruction.aggregate 4 2).mnemonic sameTwice = .ok "SEXP\ta 1 2" ∧
      (Instruction.matchAggregate 0 2).mnemonic sameTwice ≠ .ok "SEXP\ta 1 2" ∧
      (Instruction.aggregate 4 12).mnemonic sameTwice ≠ .ok "SEXP\ta 1 2" := by
  have shown : (Instruction.aggregate 0 2).mnemonic sameTwice = .ok "SEXP\ta 1 2" := by
    decide +kernel
  have alike (other : Instruction) :=
    lines_determine_instructions sameTwice (.aggregate 0 2) other _ shown
  refine ⟨shown, ?_, ?_, ?_⟩
  · exact (alike _).mpr (.inr (.inr (.inl ⟨0, 4, 2, rfl, rfl, by decide +kernel⟩)))
  · rw [Ne, alike]
    simp
  · rw [Ne, alike]
    simp

end BytecodeMachine
