import IoProcessor.Library.Memory

/-! Registers as aligned words of memory, and the fields of a register. -/
namespace IoProcessor.Library
namespace Memory

/-- The read-modify-write of a register. -/
def modify32 (m : Memory) (a : Word) (f : Word → Word) : Memory := m.store32 a (f (m.load32 a))

/-- Aligned words are the same or apart. -/
theorem load32_store32_of_aligned (m : Memory) {a b : Word} (v : Word) (ha : a.toNat % 4 = 0) (hb : b.toNat % 4 = 0) :
    (m.store32 a v).load32 b = if b = a then v else m.load32 b := by
  split
  · rename_i h
    rw [h, load32_store32]
  · rename_i h
    have hne : b.toNat ≠ a.toNat := fun he => h (BitVec.eq_of_toNat_eq he)
    have hla := a.isLt
    have hlb := b.isLt
    refine load32_store_outside ?_ (by omega) ?_
    · rw [littleEndian_length]
      omega
    · rw [littleEndian_length]
      omega

theorem load32_modify32 (m : Memory) {a b : Word} (f : Word → Word) (ha : a.toNat % 4 = 0) (hb : b.toNat % 4 = 0) :
    (m.modify32 a f).load32 b = if b = a then f (m.load32 b) else m.load32 b := by
  rw [modify32, load32_store32_of_aligned m _ ha hb]
  split
  · rename_i h
    rw [h]
  · rfl

end Memory

/-- A field of four bits that is cleared and then filled in. -/
def replaceNibble (val : Word) (shift : Nat) (v : Word) : Word := (val &&& ~~~(0x0F#32 <<< shift)) ||| ((v &&& 0x0F) <<< shift)

private theorem getLsbD_fifteen (i : Nat) : (0x0F#32).getLsbD i = decide (i < 4) := by
  rcases Nat.lt_or_ge i 32 with h | h
  · interval_cases i <;> rfl
  · rw [BitVec.getLsbD_of_ge _ _ h]
    symm
    simp
    omega

theorem getLsbD_replaceNibble (val v : Word) {shift i : Nat} (hi : i < 32) :
    (replaceNibble val shift v).getLsbD i =
      if shift ≤ i ∧ i < shift + 4 then v.getLsbD (i - shift) else val.getLsbD i := by
  simp only [replaceNibble, BitVec.getLsbD_or, BitVec.getLsbD_and, BitVec.getLsbD_not, BitVec.getLsbD_shiftLeft,
    BitVec.ofNat_eq_ofNat, getLsbD_fifteen]
  split <;> grind

/-- The field itself holds the new value. -/
theorem replaceNibble_self (val v : Word) {shift : Nat} (h : shift + 4 ≤ 32) :
    (replaceNibble val shift v).extractLsb' shift 4 = v.extractLsb' 0 4 := by
  apply BitVec.eq_of_getLsbD_eq
  intro i hi
  rw [BitVec.getLsbD_extractLsb', BitVec.getLsbD_extractLsb', getLsbD_replaceNibble val v (by omega),
    if_pos (by omega), Nat.add_sub_cancel_left, Nat.zero_add]

/-- The other fields keep theirs. -/
theorem replaceNibble_other (val v : Word) {shift other : Nat} (h : other + 4 ≤ shift ∨ shift + 4 ≤ other)
    (hother : other + 4 ≤ 32) : (replaceNibble val shift v).extractLsb' other 4 = val.extractLsb' other 4 := by
  apply BitVec.eq_of_getLsbD_eq
  intro i hi
  rw [BitVec.getLsbD_extractLsb', BitVec.getLsbD_extractLsb', getLsbD_replaceNibble val v (by omega),
    if_neg (by omega)]

end IoProcessor.Library
