import BytecodeMachine.LittleEndian
import BytecodeMachine.Proofs.Size
/-!
# Numbers in byte strings

Every four bytes are the form of exactly one number, so to read a number at a position is
to say that its form stands there. Byte strings that stand one behind another are dealt with
by one law about prefixes.
-/
namespace BytecodeMachine

/-- Two byte strings stand at the front, one behind the other. The second one is looked for behind
as many bytes as the first one has. -/
theorem append_prefix_iff {α : Type} {front behind bytes : List α} :
    front ++ behind <+: bytes ↔ front <+: bytes ∧ behind <+: bytes.drop front.length := by
  constructor
  · rintro ⟨rest, rfl⟩
    rw [List.append_assoc, List.drop_left]
    exact ⟨List.prefix_append .., List.prefix_append ..⟩
  · rintro ⟨⟨tail, rfl⟩, later⟩
    rw [List.drop_left] at later
    exact (List.prefix_append_right_inj front).mpr later

/-- A byte string is all that there is. -/
theorem eq_append_iff {α : Type} {front behind bytes : List α} :
    bytes = front ++ behind ↔ front <+: bytes ∧ bytes.drop front.length = behind := by
  constructor
  · rintro rfl
    exact ⟨List.prefix_append .., List.drop_left⟩
  · rintro ⟨⟨tail, rfl⟩, rfl⟩
    rw [List.drop_left]

/-- Of byte strings of the same length only one stands at the front. -/
theorem prefix_append_iff_eq {α : Type} {front : List α} (front' rest : List α)
    (same : front.length = front'.length) : front <+: front' ++ rest ↔ front = front' := by
  constructor
  · rintro ⟨tail, whole⟩
    exact (List.append_inj whole same).1
  · rintro rfl
    exact List.prefix_append ..

namespace LittleEndian

/-- A number takes four bytes. -/
@[simp]
theorem length_encode (number : Int32) : (encode number).length = 4 := rfl

/-- Four bytes are the form of the number they are read as. As digits to the base 256 they are
those of its unsigned word. -/
theorem encode_decode (b₀ b₁ b₂ b₃ : UInt8) : encode (decode b₀ b₁ b₂ b₃) = [b₀, b₁, b₂, b₃] := by
  have bound₀ := b₀.toNat_lt
  have bound₁ := b₁.toNat_lt
  have bound₂ := b₂.toNat_lt
  have bound₃ := b₃.toNat_lt
  have word : (decode b₀ b₁ b₂ b₃).toUInt32.toNat =
      b₀.toNat + 256 * b₁.toNat + 65536 * b₂.toNat + 16777216 * b₃.toNat := by
    rw [decode, Int32.toUInt32_ofNat', UInt32.toNat_ofNat', Nat.mod_eq_of_lt (by omega)]
  unfold encode
  rw [word]
  simp only [List.cons.injEq, and_true]
  refine ⟨?_, ?_, ?_, ?_⟩ <;> apply UInt8.toNat_inj.mp <;> rw [UInt8.toNat_ofNat'] <;> omega

/-- Decoding gives back what was encoded, so two numbers with one encoding are the same. -/
theorem encode_injective : Function.Injective encode := fun number other same => by
  have first : decode _ _ _ _ = number := decode_encode number _ _ _ _ rfl
  have second : decode _ _ _ _ = other := decode_encode other _ _ _ _ same.symm
  exact first.symm.trans second

/-- Encoding and decoding are inverse to each other: four bytes decode to the one number that they
encode. -/
theorem decode_eq_iff {number : Int32} {b₀ b₁ b₂ b₃ : UInt8} :
    decode b₀ b₁ b₂ b₃ = number ↔ encode number = [b₀, b₁, b₂, b₃] := by
  constructor
  · rintro rfl
    exact encode_decode b₀ b₁ b₂ b₃
  · exact decode_encode number b₀ b₁ b₂ b₃

end LittleEndian

end BytecodeMachine
