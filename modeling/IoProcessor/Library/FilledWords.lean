import IoProcessor.Library.Memory

/-! Words stored one behind another from an address up. -/
namespace IoProcessor.Library.Memory

/-- Memory with the first `n` of some words in place. -/
def filled (m : Memory) (dst : Word) (words : Nat → Word) (n : Nat) : Memory := fun x =>
  if (x - dst).toNat < 4 * n then (words ((x - dst).toNat / 4)).extractLsb' (8 * ((x - dst).toNat % 4)) 8 else m x

variable {m : Memory} {dst : Word} {words : Nat → Word} {n : Nat}

@[simp] theorem filled_zero : m.filled dst words 0 = m := by
  funext x
  simp [filled]

theorem filled_outside {x : Word} (h : 4 * n ≤ (x - dst).toNat) : m.filled dst words n x = m x :=
  if_neg (Nat.not_lt_of_ge h)

theorem filled_apply {k : Nat} (hk : k < 4 * n) (hn : 4 * n ≤ 2^32) :
    m.filled dst words n (dst + BitVec.ofNat 32 k) = (words (k / 4)).extractLsb' (8 * (k % 4)) 8 := by
  rw [filled, add_sub_toNat (by omega), if_pos hk]

theorem store32_apply (a v x : Word) :
    m.store32 a v x = if (x - a).toNat < 4 then v.extractLsb' (8 * (x - a).toNat) 8 else m x := by
  rw [store32, store, littleEndian, List.getD_eq_getElem?_getD, List.getElem?_map]
  split
  · rename_i h
    rw [List.getElem?_range h]
    rfl
  · rename_i h
    rw [List.getElem?_eq_none (by rw [List.length_range]; omega)]
    rfl

/-- The next word goes behind the others. -/
theorem filled_succ (h : 4 * (n+1) ≤ 2^32) :
    (m.filled dst words n).store32 (dst + BitVec.ofNat 32 (4*n)) (words n) = m.filled dst words (n+1) := by
  funext x
  obtain ⟨k, hk, rfl⟩ := exists_offset dst x
  have hoff : (dst + BitVec.ofNat 32 k - (dst + BitVec.ofNat 32 (4*n))).toNat = (k + (2^32 - 4*n)) % 2^32 := by
    simp only [BitVec.toNat_sub, BitVec.toNat_add, BitVec.toNat_ofNat]
    omega
  rw [store32_apply, hoff, filled, filled, add_sub_toNat hk]
  rcases Nat.lt_or_ge k (4*n) with hlow | hlow
  · rw [if_neg (by omega), if_pos hlow, if_pos (by omega)]
  · rcases Nat.lt_or_ge k (4*(n+1)) with hlast | hlast
    · have hword : k / 4 = n := by omega
      have hbyte : (k + (2^32 - 4*n)) % 2^32 = k % 4 := by omega
      rw [hbyte, if_pos (by omega), if_pos hlast, hword]
    · rw [if_neg (by omega), if_neg (by omega), if_neg (by omega)]

/-- The words of another place, byte by byte. -/
theorem filled_copy {image : Memory} {src : Word} {k : Nat} (hk : k < 4 * n) (hn : 4 * n ≤ 2^32) :
    m.filled dst (fun i => image.load32 (src + BitVec.ofNat 32 (4*i))) n (dst + BitVec.ofNat 32 k) =
      image (src + BitVec.ofNat 32 k) := by
  have haddr : src + BitVec.ofNat 32 (4 * (k/4)) + BitVec.ofNat 32 (k % 4) = src + BitVec.ofNat 32 k := by
    rw [BitVec.add_assoc, ← BitVec.ofNat_add, Nat.div_add_mod]
  rw [filled_apply hk hn, load32_byte image _ _ (Nat.mod_lt k (by omega)), haddr]

/-- Words away from the stored ones are read as before. -/
theorem load32_filled {a : Word} (h : ∀ k < 4, 4 * n ≤ (a + BitVec.ofNat 32 k - dst).toNat) :
    (m.filled dst words n).load32 a = m.load32 a :=
  load32_congr fun k hk => filled_outside (h k hk)

end IoProcessor.Library.Memory
