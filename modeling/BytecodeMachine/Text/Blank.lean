/-!
# Blanks and words

A blank is a character with the Unicode property White_Space. A text falls into
words, its longest parts without blanks; trimming removes the blanks at both ends.
-/
namespace BytecodeMachine.Text

/-- The first and last code points of each run of characters with the property White_Space. -/
def blankRanges : List (Nat × Nat) :=
  [(0x09, 0x0D), (0x20, 0x20), (0x85, 0x85), (0xA0, 0xA0), (0x1680, 0x1680), (0x2000, 0x200A),
   (0x2028, 0x2029), (0x202F, 0x202F), (0x205F, 0x205F), (0x3000, 0x3000)]

def isBlank (c : Char) : Bool :=
  blankRanges.any fun (first, last) => first ≤ c.toNat && c.toNat ≤ last

/-- The longest parts of a text that have no blanks, in order. -/
def words (cs : List Char) : List (List Char) :=
  go [] cs
where
  /-- The words of the rest, given the characters of the current word, last one first. -/
  go (current : List Char) : List Char → List (List Char)
    | [] => if current.isEmpty then [] else [current.reverse]
    | c :: rest =>
      if isBlank c then
        if current.isEmpty then go [] rest else current.reverse :: go [] rest
      else go (c :: current) rest

def trim (cs : List Char) : List Char :=
  ((cs.dropWhile isBlank).reverse.dropWhile isBlank).reverse

/-- The text in lower case as far as it is ASCII. -/
def lowerAscii (cs : List Char) : List Char := cs.map Char.toLower

end BytecodeMachine.Text
