/-!
# UTF-8

Bytes that are shown as text are decoded with replacement: each maximal beginning
of a well-formed sequence that is not completed becomes one U+FFFD, and so does
each byte that begins none. Input lines are decoded strictly and refused when they
are ill-formed.

Both readings use the same step, `next`, which takes one character or one
ill-formed part from the front. In a well-formed sequence the lead byte fixes the
number of bytes and the range of the second one, which excludes overlong forms,
surrogates and code points that are too large.
-/
namespace BytecodeMachine.Utf8

/-- What a lead byte of a longer sequence announces. -/
structure Lead where
  /-- The bits of the code point that the lead byte carries. -/
  bits : Nat
  /-- The range of the second byte. -/
  lower : UInt8
  upper : UInt8
  /-- How many bytes follow. -/
  following : Nat
deriving DecidableEq, Repr

def lead? (b : UInt8) : Option Lead :=
  if b < 0xC2 then none
  else if b < 0xE0 then some ⟨b.toNat - 0xC0, 0x80, 0xBF, 1⟩
  else if b = 0xE0 then some ⟨0, 0xA0, 0xBF, 2⟩
  else if b = 0xED then some ⟨0xD, 0x80, 0x9F, 2⟩
  else if b < 0xF0 then some ⟨b.toNat - 0xE0, 0x80, 0xBF, 2⟩
  else if b = 0xF0 then some ⟨0, 0x90, 0xBF, 3⟩
  else if b < 0xF4 then some ⟨b.toNat - 0xF0, 0x80, 0xBF, 3⟩
  else if b = 0xF4 then some ⟨4, 0x80, 0x8F, 3⟩
  else none

/-- Takes the bytes that continue a sequence, as long as they fit. The code point is
present when all of them were there. -/
def continuation (bits : Nat) (lower upper : UInt8) : Nat → List UInt8 → Option Nat × List UInt8
  | 0, bytes => (some bits, bytes)
  | _ + 1, [] => (none, [])
  | missing + 1, b :: rest =>
    if lower ≤ b ∧ b ≤ upper then
      continuation (bits * 64 + (b.toNat - 0x80)) 0x80 0xBF missing rest
    else (none, b :: rest)

/-- Takes a character, or an ill-formed part, that begins with the byte `b`. -/
def next (b : UInt8) (rest : List UInt8) : Option Char × List UInt8 :=
  if b < 0x80 then (some (Char.ofNat b.toNat), rest)
  else
    match lead? b with
    | none => (none, rest)
    | some lead =>
      let (point, rest) := continuation lead.bits lead.lower lead.upper lead.following rest
      (point.map Char.ofNat, rest)

/-- Following bytes are taken off the front of the input or left there, so that reading a sequence
never goes back. The recursion of the decoder rests on it. -/
theorem continuation_length (bits : Nat) (lower upper : UInt8) (missing : Nat)
    (bytes : List UInt8) :
    (continuation bits lower upper missing bytes).2.length ≤ bytes.length := by
  fun_induction continuation bits lower upper missing bytes with
  | case1 => simp
  | case2 => simp
  | case3 _ _ _ _ _ _ _ shorter => simp only [List.length_cons]; omega
  | case4 => simp

/-- A step takes the first byte at least, so decoding ends. -/
theorem next_length (b : UInt8) (rest : List UInt8) : (next b rest).2.length ≤ rest.length := by
  unfold next
  split
  · simp
  · split
    · simp
    · exact continuation_length ..

/-- Decodes with replacement: each ill-formed part becomes U+FFFD. -/
def decodeLossy : List UInt8 → List Char
  | [] => []
  | b :: rest =>
    have := next_length b rest
    (next b rest).1.getD (Char.ofNat 0xFFFD) :: decodeLossy (next b rest).2
termination_by bytes => bytes.length

/-- Decodes strictly: nothing when some part is ill-formed. -/
def decode? : List UInt8 → Option (List Char)
  | [] => some []
  | b :: rest =>
    have := next_length b rest
    match (next b rest).1 with
    | none => none
    | some c => (decode? (next b rest).2).map (c :: ·)
termination_by bytes => bytes.length

/-- Bytes shown as a text. -/
def text (bytes : List UInt8) : String := String.ofList (decodeLossy bytes)

end BytecodeMachine.Utf8
