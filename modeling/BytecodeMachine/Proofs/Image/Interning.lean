import BytecodeMachine.Image.Draft
import BytecodeMachine.Proofs.Size
import BytecodeMachine.Proofs.Text.Utf8
import Mathlib.Algebra.GroupWithZero.Nat
import Mathlib.Data.List.Dedup
import Mathlib.Data.List.Find
/-!
# String tables

The table of a draft is told by a list of texts, each of which is in it once: its bytes are those
of the texts, one behind another, each ended by a zero byte. A text is entered behind the others
unless it is there, so what has been entered stays where it is, and an offset that has been given
stays good, whatever is asked of the draft later.

An image finds strings by looking for a zero byte. This finds the end of a text that has no zero
byte in it, whatever stands before and behind.
-/
namespace BytecodeMachine

namespace Image

variable {strings : Array UInt8} {front bytes behind : List UInt8}

/-- The zero byte that ends a string without zero bytes. Proof: induction on the string, where each
byte that is skipped is added to what stands in front. -/
theorem terminator?_of_stands (stands : strings.toList = front ++ bytes ++ 0 :: behind)
    (free : 0 ∉ bytes) : terminator? strings front.length = some (front.length + bytes.length) := by
  induction bytes generalizing front with
  | nil =>
    have there : strings[front.length]? = some 0 := by
      rw [← Array.getElem?_toList, stands]
      simp
    obtain ⟨inside, zero⟩ := Array.getElem?_eq_some_iff.mp there
    rw [terminator?, dif_pos inside, if_pos zero]
    rfl
  | cons b rest later =>
    have there : strings[front.length]? = some b := by
      rw [← Array.getElem?_toList, stands]
      simp
    obtain ⟨inside, same⟩ := Array.getElem?_eq_some_iff.mp there
    have other : b ≠ 0 := (List.ne_of_not_mem_cons free).symm
    have free := List.not_mem_of_not_mem_cons free
    have goesOn := @later (front ++ [b]) (by simpa using stands) free
    rw [List.length_append, List.length_singleton] at goesOn
    rw [terminator?, dif_pos inside, if_neg (by rwa [same]), goesOn,
      List.length_cons]
    congr 1
    omega

/-- A string without zero bytes is found where it stands. The zero behind it is the first one from
there on, so what is cut out ends in front of it. -/
theorem stringAt_of_stands {image : Image}
    (stands : image.strings.toList = front ++ bytes ++ 0 :: behind) (free : 0 ∉ bytes)
    (small : front.length < 2147483648) :
    image.stringAt (Int32.ofNat front.length) = .ok bytes.toArray := by
  have inside : front.length < image.strings.size := by
    rw [← Array.length_toList, stands, List.length_append, List.length_append, List.length_cons]
    omega
  rw [stringAt, toNat_ofNat small, if_pos ⟨ofNat_nonneg small, inside⟩,
    terminator?_of_stands stands free]
  dsimp only
  apply congrArg
  apply Array.toList_inj.mp
  rw [Array.toList_extract, List.extract_eq_take_drop, stands, Nat.add_sub_cancel_left,
    List.append_assoc, List.drop_left, List.take_left]

end Image

/-! ### Tables of texts -/

namespace StringTable

/-- A text in the table: its bytes and the zero byte that ends it. -/
def bytes (text : String) : List UInt8 := text.toUTF8.data.toList ++ [0]

/-- Enters a text behind the others, unless it is there. -/
def enter (table : List String) (text : String) : List String :=
  if text ∈ table then table else table ++ [text]

/-- Where a text stands: behind all that come before it. -/
def position (table : List String) (text : String) : Nat :=
  ((table.takeWhile (· ≠ text)).flatMap bytes).length

variable {table before after texts : List String} {text : String}

/-- A text takes its bytes and the zero behind them. -/
theorem length_bytes (text : String) : (bytes text).length = text.utf8ByteSize + 1 := by
  rw [bytes, List.length_append, List.length_singleton]
  rfl

/-- A text that has not occurred before stands behind the bytes of those before it. -/
theorem position_of_split (first : text ∉ before) :
    position (before ++ text :: after) text = (before.flatMap bytes).length := by
  have others : ∀ other ∈ before, decide (other ≠ text) = true := by
    rintro other member
    exact decide_eq_true fun same => first (same ▸ member)
  rw [position, List.takeWhile_append_of_pos others]
  simp

/-- What is entered later does not move a text. -/
theorem position_append (member : text ∈ table) (more : List String) :
    position (table ++ more) text = position table text := by
  obtain ⟨before, after, rfl, first⟩ := List.eq_append_cons_of_mem member
  rw [List.append_assoc, List.cons_append, position_of_split first, position_of_split first]

/-- A text that is entered is in the table, whether it was there before or not. -/
theorem mem_enter : text ∈ enter table text := by
  unfold enter
  split
  · assumption
  · simp

/-- Entering a text leaves what is there in its place. -/
theorem prefix_enter : table <+: enter table text := by
  unfold enter
  split
  · exact List.prefix_refl _
  · exact List.prefix_append ..

/-- So does entering any number of them. -/
theorem prefix_foldl_enter : table <+: texts.foldl enter table := by
  induction texts generalizing table with
  | nil => exact List.prefix_refl _
  | cons text texts later => exact prefix_enter.trans later

/-- In a longer table the texts of the shorter one stand where they stood. -/
theorem position_prefix {longer : List String} (member : text ∈ table) (goesOn : table <+: longer) :
    position longer text = position table text := by
  obtain ⟨more, rfl⟩ := goesOn
  exact position_append member more

/-- Only texts that are not there are put behind the others, so no text is in the table twice. The
induction is on the texts, with the table that has been made so far. -/
theorem nodup_foldl_enter (distinct : table.Nodup) : (texts.foldl enter table).Nodup := by
  induction texts generalizing table with
  | nil => exact distinct
  | cons text texts later =>
    apply later
    unfold enter
    split
    · exact distinct
    · next fresh =>
      refine List.nodup_append.mpr ⟨distinct, List.nodup_singleton _, ?_⟩
      rintro other member _ last rfl
      rw [List.mem_singleton.mp last] at member
      exact fresh member

/-- The table holds what it held and what has been entered. A text that is there already adds
nothing, and this is no loss since it is there. -/
theorem mem_foldl_enter {other : String} :
    other ∈ texts.foldl enter table ↔ other ∈ table ∨ other ∈ texts := by
  induction texts generalizing table with
  | nil => simp
  | cons text texts later =>
    rw [List.foldl_cons, later, List.mem_cons]
    unfold enter
    split
    · next member =>
      constructor
      · rintro (there | later)
        · exact .inl there
        · exact .inr (.inr later)
      · rintro (there | rfl | later)
        · exact .inl there
        · exact .inl member
        · exact .inr later
    · simp [or_assoc]

/-- The table holds each text once. -/
theorem foldl_enter_perm_dedup : (texts.foldl enter []).Perm texts.dedup := by
  rw [List.perm_ext_iff_of_nodup (nodup_foldl_enter List.nodup_nil) texts.nodup_dedup]
  simp [mem_foldl_enter]

end StringTable

/-! ### Drafts -/

namespace ImageDraft

open StringTable

/-- What is asked of a draft: the offset of a string, a public symbol, or the number of globals. -/
inductive Request
  | string (text : String)
  | symbol (name : String) (offset : Nat)
  | globals (count : Nat)

/-- The text that a request enters. -/
def Request.text? : Request → Option String
  | .string text => some text
  | .symbol name _ => some name
  | .globals _ => none

/-- The public symbol that a request declares. -/
def Request.symbol? : Request → Option (String × Nat)
  | .symbol name offset => some (name, offset)
  | _ => none

def serve (draft : ImageDraft) : Request → ImageDraft
  | .string text => (draft.intern text).2
  | .symbol name offset => draft.declare name offset
  | .globals count => draft.withGlobals count

/-- The strings that are asked for, each with the offset that is given for it at that time. -/
def given (draft : ImageDraft) : List Request → List (String × Int32)
  | [] => []
  | .string text :: later =>
    (text, (draft.intern text).1) :: (draft.serve (.string text)).given later
  | request :: later => (draft.serve request).given later

/-- The table that requests lead to. -/
def tableOf (table : List String) (requests : List Request) : List String :=
  (requests.filterMap Request.text?).foldl enter table

variable {draft : ImageDraft} {table : List String} {asked : List Request}

/-- The bytes of a draft are those of a table, and each text of it is known by its offset. -/
structure Holds (draft : ImageDraft) (table : List String) : Prop where
  strings : draft.strings.toList = table.flatMap bytes
  interned : ∀ text, draft.interned.lookup text =
    if text ∈ table then some (Int32.ofNat (position table text)) else none

/-- An empty draft has an empty table. -/
theorem holds_nil : Holds {} [] := ⟨rfl, fun text => by simp⟩

/-- The table goes on where it ends if the text is not known. A known text is looked up and nothing
changes. An unknown one is put behind the bytes there are, which is its position, and the positions
of the others stay. -/
theorem Holds.intern (holds : draft.Holds table) (text : String) :
    (draft.intern text).1 = Int32.ofNat (position (enter table text) text) ∧
      (draft.intern text).2.Holds (enter table text) := by
  have known := holds.interned text
  unfold ImageDraft.intern enter
  by_cases member : text ∈ table
  · rw [if_pos member] at known ⊢
    rw [known]
    exact ⟨rfl, holds⟩
  · rw [if_neg member] at known ⊢
    rw [known]
    have offset : Int32.ofNat draft.strings.size =
        Int32.ofNat (position (table ++ [text]) text) := by
      rw [position_of_split member, ← holds.strings, Array.length_toList]
    refine ⟨offset, ?_, fun other => ?_⟩
    · rw [Array.toList_push, Array.toList_append, holds.strings, List.flatMap_append,
        List.flatMap_singleton, bytes, List.append_assoc]
    · by_cases same : other = text
      · subst same
        simp [offset]
      · have different : (other == text) = false := beq_false_of_ne same
        rw [List.lookup_cons, different, holds.interned]
        by_cases there : other ∈ table
        · simp [there, position_append there]
        · simp [there, same]

/-- Asking for a string declares nothing. -/
theorem publics_intern (text : String) : (draft.intern text).2.publics = draft.publics := by
  unfold intern
  split <;> rfl

/-- A declaration puts its symbol behind the others, with the offset that its name is given. -/
theorem publics_declare (name : String) (offset : Nat) :
    (draft.declare name offset).publics =
      draft.publics ++ [⟨(draft.intern name).1.toUInt32, UInt32.ofNat offset⟩] := by
  rw [← @publics_intern draft name]
  rfl

/-- One request. A string and the name of a symbol are entered, and the number of globals is beside
the table. -/
theorem Holds.serve (holds : draft.Holds table) (request : Request) :
    (draft.serve request).Holds (tableOf table [request]) := by
  cases request with
  | string text => exact (holds.intern text).2
  | symbol name offset => exact ⟨(holds.intern name).2.strings, (holds.intern name).2.interned⟩
  | globals count => exact ⟨holds.strings, holds.interned⟩

/-- The first request leads to a table, and the later ones go on from there. -/
theorem tableOf_cons (table : List String) (request : Request) (later : List Request) :
    tableOf table (request :: later) = tableOf (tableOf table [request]) later := by
  cases request <;> rfl

/-- By induction on the requests, what one of them preserves all of them do. -/
theorem Holds.served (holds : draft.Holds table) (asked : List Request) :
    (asked.foldl ImageDraft.serve draft).Holds (tableOf table asked) := by
  induction asked generalizing draft table with
  | nil => exact holds
  | cons request later goesOn =>
    rw [List.foldl_cons, tableOf_cons]
    exact goesOn (holds.serve request)

/-- Where a text has been entered it stays, whatever is asked later. -/
theorem position_tableOf (table : List String) (text : String) (later : List Request) :
    text ∈ tableOf (enter table text) later ∧
      position (tableOf (enter table text) later) text = position (enter table text) text :=
  ⟨prefix_foldl_enter.subset mem_enter, position_prefix mem_enter prefix_foldl_enter⟩

/-- An offset that is given is good for the table that all requests lead to. Proof: induction on
the requests. At the time it is the position of the text, and later requests leave that where it
is. -/
theorem Holds.given {text : String} {offset : Int32} (holds : draft.Holds table)
    (member : (text, offset) ∈ draft.given asked) :
    text ∈ tableOf table asked ∧ offset = Int32.ofNat (position (tableOf table asked) text) := by
  induction asked generalizing draft table with
  | nil => cases member
  | cons request later goesOn =>
    rw [tableOf_cons]
    cases request with
    | string other =>
      obtain first | rest := List.mem_cons.mp member
      · cases first
        obtain ⟨there, stays⟩ := position_tableOf table text later
        exact ⟨there, by rw [(holds.intern text).1, ← stays]; rfl⟩
      · exact goesOn (holds.serve _) rest
    | symbol name offset => exact goesOn (holds.serve _) member
    | globals count => exact goesOn (holds.serve _) member

/-- A public symbol whose name is in the table. -/
def symbolIn (table : List String) (declared : String × Nat) : PublicSymbol :=
  ⟨(Int32.ofNat (position table declared.1)).toUInt32, UInt32.ofNat declared.2⟩

/-- Public symbols are kept in the order in which they are declared. Proof: induction on the
requests. The offset of a name is the one at the time of its declaration, which is still the one in
the final table. -/
theorem Holds.publics (holds : draft.Holds table) :
    (asked.foldl ImageDraft.serve draft).publics = draft.publics ++
      (asked.filterMap Request.symbol?).map (symbolIn (tableOf table asked)) := by
  induction asked generalizing draft table with
  | nil => simp
  | cons request later goesOn =>
    rw [List.foldl_cons, goesOn (holds.serve request), tableOf_cons]
    cases request with
    | string text =>
      rw [ImageDraft.serve, publics_intern]
      rfl
    | symbol name offset =>
      obtain ⟨_, stays⟩ := position_tableOf table name later
      rw [ImageDraft.serve, publics_declare, (holds.intern name).1, ← stays, List.append_assoc]
      rfl
    | globals count => rfl

/-- From the empty table on, it holds the texts that the requests enter and no others. -/
theorem mem_tableOf_iff {text : String} :
    text ∈ tableOf [] asked ↔ text ∈ asked.filterMap Request.text? := by
  rw [tableOf, mem_foldl_enter]
  simp only [List.not_mem_nil, false_or]

end ImageDraft

namespace Image

open StringTable ImageDraft

/-- The string table of an image is made of texts without zero bytes, and all offsets in it fit in
signed numbers. -/
structure MadeOf (image : Image) (table : List String) : Prop where
  strings : image.strings.toList = table.flatMap bytes
  free : ∀ text ∈ table, 0 ∉ text.toUTF8.data.toList
  small : image.strings.size < 2147483648

namespace MadeOf

variable {image : Image} {table : List String} {text other : String} (made : image.MadeOf table)
include made

/-- Texts are found at their positions. The table falls into what stands before the text, the text
with its zero, and the rest; its position is the length of the first part. -/
theorem stringAt (member : text ∈ table) :
    image.stringAt (Int32.ofNat (position table text)) = .ok text.toUTF8.data := by
  have free := made.free text member
  obtain ⟨before, after, rfl, first⟩ := List.eq_append_cons_of_mem member
  have stands : image.strings.toList =
      before.flatMap bytes ++ text.toUTF8.data.toList ++ 0 :: after.flatMap bytes := by
    rw [made.strings, List.flatMap_append, List.flatMap_cons]
    simp only [bytes, List.append_assoc, List.singleton_append]
  have inside := congrArg List.length stands
  rw [Array.length_toList, List.length_append, List.length_append] at inside
  have small := made.small
  rw [position_of_split first, stringAt_of_stands stands free (by omega)]

/-- A text of the table is read at its position, as the text whose bytes are found there. -/
theorem textAt (member : text ∈ table) :
    image.textAt (Int32.ofNat (position table text)) = .ok text := by
  rw [Image.textAt, made.stringAt member]
  exact congrArg _ (Utf8.text_toUTF8 text)

/-- Texts are told apart by their positions: at each position one string is found, and the bytes of
a string determine the text. -/
theorem position_inj (member : text ∈ table) (member' : other ∈ table) :
    Int32.ofNat (position table text) = Int32.ofNat (position table other) ↔ text = other := by
  constructor
  · intro same
    have found := made.stringAt member
    rw [same, made.stringAt member'] at found
    exact Utf8.toUTF8_inj (Except.ok.inj found).symm
  · rintro rfl
    rfl

/-- A declared symbol has the name that is looked for if the names are the same text. Their bytes
are compared, which tell texts apart. -/
theorem hasName {declared : String × Nat} (member : declared.1 ∈ table) (name : String) :
    image.hasName name.toUTF8.data (symbolIn table declared) = decide (declared.1 = name) := by
  rw [Image.hasName, symbolIn, Int32.toInt32_toUInt32, made.stringAt member]
  dsimp only
  rw [Bool.beq_eq_decide_eq]
  exact decide_eq_decide.mpr ⟨Utf8.toUTF8_inj, fun same => by rw [same]⟩

/-- The name of a declared symbol is read back. -/
theorem publicName {declared : String × Nat} (member : declared.1 ∈ table) :
    image.publicName (symbolIn table declared) = .ok declared.1 := by
  rw [Image.publicName, symbolIn, Int32.toInt32_toUInt32, made.textAt member]

/-- The first public symbol of a name is the one that was declared first. Symbols stand in the
order of their declarations, and each has the name of its own declaration and no other. -/
theorem publicOffset? {declared : List (String × Nat)}
    (publics : image.publics = declared.map (symbolIn table))
    (members : ∀ symbol ∈ declared, symbol.1 ∈ table) (name : String) :
    image.publicOffset? name =
      (declared.find? (·.1 = name)).map (fun symbol => UInt32.ofNat symbol.2) := by
  rw [Image.publicOffset?, publics, List.find?_map, Option.map_map]
  have same : declared.find? (image.hasName name.toUTF8.data ∘ symbolIn table) =
      declared.find? (·.1 = name) :=
    List.find?_congr fun symbol member => made.hasName (members symbol member) name
  rw [same]
  rfl

end MadeOf

end Image

namespace ImageDraft

open StringTable

variable {asked : List Request}

/-- A finished draft has made its table from texts without zero bytes, and all offsets fit if the
size of the whole does. -/
theorem madeOf_finish (code : CodeDraft)
    (free : ∀ text ∈ asked.filterMap Request.text?, 0 ∉ text.toUTF8.data.toList)
    (small : (asked.foldl serve {}).strings.size < 2147483648) :
    ((asked.foldl serve {}).finish code).MadeOf (tableOf [] asked) where
  strings := (holds_nil.served asked).strings
  free text member := free text (mem_tableOf_iff.mp member)
  small := small

/-- A declaration enters the name it declares. It is one of the requests that have been made, and
its text is this name. -/
theorem mem_tableOf_of_symbol {symbol : String × Nat}
    (declared : symbol ∈ asked.filterMap Request.symbol?) : symbol.1 ∈ tableOf [] asked := by
  obtain ⟨request, member, declares⟩ := List.mem_filterMap.mp declared
  refine mem_tableOf_iff.mpr (List.mem_filterMap.mpr ⟨request, member, ?_⟩)
  cases request with
  | symbol name offset =>
    cases declares
    rfl
  | _ => cases declares

/-- The table takes the bytes of each text, and one more. -/
theorem size_strings (asked : List Request) :
    (asked.foldl serve {}).strings.size =
      ((asked.filterMap Request.text?).dedup.map (·.utf8ByteSize + 1)).sum := by
  rw [← Array.length_toList, (holds_nil.served asked).strings, List.length_flatMap]
  have lengths : (fun text => (bytes text).length) = (·.utf8ByteSize + 1) := funext length_bytes
  rw [lengths]
  exact (foldl_enter_perm_dedup.map _).sum_nat

end ImageDraft

/-- An image that is put together from strings and names without zero bytes, and whose table is not
too large for signed offsets, has all of them.
* Each offset that was given for a string leads to this string.
* Equal strings were given the same offset and different ones different offsets, and the table
  holds each string once, with a byte behind it.
* The public symbols have the names that they were given, in the order in which they were
  declared, and a name leads to the offset that it was declared with first, of which the low 32
  bits are kept. -/
theorem interned_strings_are_found (asked : List ImageDraft.Request) (code : CodeDraft)
    (free : ∀ text ∈ asked.filterMap ImageDraft.Request.text?, 0 ∉ text.toUTF8.data.toList)
    (small : (asked.foldl ImageDraft.serve {}).strings.size < 2147483648) :
    let image := (asked.foldl ImageDraft.serve {}).finish code
    let given := ImageDraft.given {} asked
    let declared := asked.filterMap ImageDraft.Request.symbol?
    (∀ string ∈ given, image.stringAt string.2 = .ok string.1.toUTF8.data) ∧
    (∀ string ∈ given, ∀ other ∈ given, string.2 = other.2 ↔ string.1 = other.1) ∧
    image.strings.size =
      ((asked.filterMap ImageDraft.Request.text?).dedup.map (·.utf8ByteSize + 1)).sum ∧
    image.publics.map image.publicName = declared.map (fun symbol => .ok symbol.1) ∧
    ∀ name, image.publicOffset? name =
      (declared.find? (·.1 = name)).map (fun symbol => UInt32.ofNat symbol.2) := by
  intro image given declared
  have made : image.MadeOf (ImageDraft.tableOf [] asked) :=
    ImageDraft.madeOf_finish code free small
  have publics : image.publics =
      declared.map (ImageDraft.symbolIn (ImageDraft.tableOf [] asked)) :=
    ImageDraft.holds_nil.publics
  refine ⟨?_, ?_, ImageDraft.size_strings asked, ?_, ?_⟩
  · intro string member
    obtain ⟨there, offset⟩ := ImageDraft.holds_nil.given member
    rw [offset, made.stringAt there]
  · intro string member other member'
    obtain ⟨there, offset⟩ := ImageDraft.holds_nil.given member
    obtain ⟨there', offset'⟩ := ImageDraft.holds_nil.given member'
    rw [offset, offset', made.position_inj there there']
  · rw [publics, List.map_map]
    exact List.map_congr_left fun symbol member =>
      made.publicName (ImageDraft.mem_tableOf_of_symbol member)
  · exact made.publicOffset? publics fun symbol => ImageDraft.mem_tableOf_of_symbol

/-- The empty string, a string that ends like another one, and a name that is declared twice, first
for an offset of more than 32 bits. -/
def assembled : List ImageDraft.Request :=
  [.string "cons", .symbol "main" 4294967301, .string "", .globals 2, .string "s",
    .symbol "s" 9, .string "cons", .symbol "main" 7]

/-- What is asked for a second time is found where it was the first time, the symbol that shares its
name with a string shares its place too, and the later symbol of a name is in the shade of the
earlier one. -/
theorem interned_strings_are_found_assembled :
    let image := (assembled.foldl ImageDraft.serve {}).finish {}
    image.stringAt 0 = .ok "cons".toUTF8.data ∧ image.stringAt 11 = .ok "s".toUTF8.data ∧
    image.strings.size = 13 ∧
    image.publics.map image.publicName = [.ok "main", .ok "s", .ok "main"] ∧
    image.publicOffset? "main" = some 5 ∧ image.publicOffset? "cons" = none := by
  have free : ∀ text ∈ assembled.filterMap ImageDraft.Request.text?,
      0 ∉ text.toUTF8.data.toList := by decide +kernel
  have small : (assembled.foldl ImageDraft.serve {}).strings.size < 2147483648 := by decide +kernel
  obtain ⟨found, _, size, named, symbols⟩ := interned_strings_are_found assembled {} free small
  have given : ImageDraft.given {} assembled = [("cons", 0), ("", 10), ("s", 11), ("cons", 0)] := by
    decide +kernel
  rw [given] at found
  refine ⟨found ("cons", 0) (by simp), found ("s", 11) (by simp), ?_, named, symbols "main",
    symbols "cons"⟩
  exact size.trans (by decide +kernel)

end BytecodeMachine
