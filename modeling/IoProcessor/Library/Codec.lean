import IoProcessor.Library.Struct

/-! Byte formats with a reader that takes one value off the front and leaves the
rest, so that formats can be put one behind the other. -/
namespace IoProcessor.Library
open Memory

structure Codec (α : Type) where
  encode : α → List Byte
  decode : List Byte → Option (α × List Byte)
  decode_encode : ∀ a rest, decode (encode a ++ rest) = some (a, rest)

namespace Codec
variable {α β : Type}

/-- An unsigned field of some bytes, the least significant one first. -/
def field (n : Nat) : Codec (BitVec (8*n)) where
  encode v := littleEndian n v
  decode bytes :=
    if bytes.length < n then none
    else some (BitVec.ofNat (8*n) (Struct.value (bytes.take n)), bytes.drop n)
  decode_encode v rest := by
    have hlen : ¬ (littleEndian n v ++ rest).length < n := by
      rw [List.length_append, littleEndian_length]
      omega
    have hvalue : BitVec.ofNat (8*n) (Struct.value (littleEndian n v)) = v := by
      rw [Struct.value_littleEndian, show 256^n = 2^(8*n) from (Nat.pow_mul 2 8 n).symm, Nat.mod_eq_of_lt v.isLt,
        BitVec.ofNat_toNat, BitVec.setWidth_eq]
    rw [if_neg hlen, List.take_append_of_le_length (by simp), List.take_of_length_le (by simp), hvalue,
      List.drop_append_of_le_length (by simp), List.drop_of_length_le (by simp), List.nil_append]

/-- One value behind another. -/
def pair (first : Codec α) (second : Codec β) : Codec (α × β) where
  encode v := first.encode v.1 ++ second.encode v.2
  decode bytes := do
    let (a, rest) ← first.decode bytes
    let (b, rest) ← second.decode rest
    some ((a, b), rest)
  decode_encode v rest := by simp only [List.append_assoc, first.decode_encode, second.decode_encode,
    Option.bind_eq_bind, Option.bind_some]

/-- The same bytes, read as a record of the fields. -/
def record (codec : Codec α) (make : α → β) (fields : β → α) (h : ∀ b, make (fields b) = b) : Codec β where
  encode b := codec.encode (fields b)
  decode bytes := do
    let (a, rest) ← codec.decode bytes
    some (make a, rest)
  decode_encode b rest := by simp only [codec.decode_encode, Option.bind_eq_bind, Option.bind_some, h]

/-- A value behind a byte that tells its kind. -/
def tagged {κ : Type} {γ : κ → Type} (code : κ → Byte) (kind : Byte → Option κ)
    (h : ∀ k, kind (code k) = some k) (codec : ∀ k, Codec (γ k)) : Codec (Σ k, γ k) where
  encode v := code v.1 :: (codec v.1).encode v.2
  decode
    | [] => none
    | b :: bytes => do
      let k ← kind b
      let (v, rest) ← (codec k).decode bytes
      some (⟨k, v⟩, rest)
  decode_encode v rest := by
    simp only [List.cons_append, h, (codec v.1).decode_encode, Option.bind_eq_bind, Option.bind_some]

/-- Values one behind the other to the end of the bytes, at most so many. -/
def decodeAll (codec : Codec α) : Nat → List Byte → Option (List α)
  | _, [] => some []
  | 0, _ :: _ => none
  | n+1, b :: bytes => do
    let (a, rest) ← codec.decode (b :: bytes)
    let others ← codec.decodeAll n rest
    some (a :: others)

theorem decodeAll_cons (codec : Codec α) (n : Nat) {a : α} (h : codec.encode a ≠ []) (rest : List Byte) :
    codec.decodeAll (n+1) (codec.encode a ++ rest) = (codec.decodeAll n rest).map (a :: ·) := by
  have hd := codec.decode_encode a rest
  obtain ⟨b, bytes, hb⟩ := List.exists_cons_of_ne_nil (List.append_ne_nil_of_left_ne_nil h rest)
  rw [hb] at hd ⊢
  simp only [decodeAll, hd, Option.bind_eq_bind, Option.bind_some]
  cases codec.decodeAll n rest with
  | none => rfl
  | some others => rfl

/-- What was written is read, in order. -/
theorem decodeAll_encode (codec : Codec α) (hne : ∀ a, codec.encode a ≠ []) (values : List α) {n : Nat}
    (hn : values.length ≤ n) : codec.decodeAll n (values.flatMap codec.encode) = some values := by
  induction values generalizing n with
  | nil => cases n <;> rfl
  | cons a values ih =>
    rw [List.length_cons] at hn
    obtain ⟨n, rfl⟩ := Nat.exists_eq_add_of_lt (Nat.lt_of_lt_of_le (Nat.succ_pos _) hn)
    rw [Nat.zero_add] at hn ⊢
    rw [List.flatMap_cons, decodeAll_cons codec n (hne a), ih (by omega), Option.map_some]

end Codec
end IoProcessor.Library
