/-!
# Little-endian numbers

Files and code hold signed 32-bit numbers as four bytes, least significant first,
in two's complement.
-/
namespace BytecodeMachine.LittleEndian

def encode (number : Int32) : List UInt8 :=
  let word := number.toUInt32.toNat
  [UInt8.ofNat word, UInt8.ofNat (word / 256), UInt8.ofNat (word / 65536), UInt8.ofNat (word / 16777216)]

def decode (b₀ b₁ b₂ b₃ : UInt8) : Int32 :=
  Int32.ofNat (b₀.toNat + 256 * b₁.toNat + 65536 * b₂.toNat + 16777216 * b₃.toNat)

/-- A number is read back from its four bytes. The bytes are the digits of its unsigned word
to the base 256, so they add up to that word again. -/
theorem decode_encode (number : Int32) (b₀ b₁ b₂ b₃ : UInt8)
    (written : encode number = [b₀, b₁, b₂, b₃]) : decode b₀ b₁ b₂ b₃ = number := by
  simp only [encode, List.cons.injEq, and_true] at written
  obtain ⟨rfl, rfl, rfl, rfl⟩ := written
  have bound := number.toUInt32.toNat_lt
  simp only [decode, UInt8.toNat_ofNat']
  have digits : number.toUInt32.toNat % 2 ^ 8 + 256 * (number.toUInt32.toNat / 256 % 2 ^ 8) +
      65536 * (number.toUInt32.toNat / 65536 % 2 ^ 8) +
      16777216 * (number.toUInt32.toNat / 16777216 % 2 ^ 8) = number.toUInt32.toNat := by omega
  rw [digits]
  apply Int32.toBitVec_inj.1
  simp [Int32.ofNat]

end BytecodeMachine.LittleEndian
