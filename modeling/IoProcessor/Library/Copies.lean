import IoProcessor.Library.Memory

/-! Copies into memory that lie one behind the other, and what they leave in a
window around them. -/
namespace IoProcessor.Library.Memory

/-- Copies to offsets from one address, in the order of the list. -/
def copyAll (m : Memory) (a : Word) (copies : List (Word × List Byte)) : Memory :=
  copies.foldl (fun m (offset, bytes) => m.store (a + offset) bytes) m

/-- Each copy starts where the one before it ends. -/
def Adjoining : Nat → List (Word × List Byte) → Prop
  | _, [] => True
  | n, (offset, bytes) :: copies => offset = BitVec.ofNat 32 n ∧ Adjoining (n + bytes.length) copies

/-- A store at an offset, seen at another offset. -/
theorem store_offset (m : Memory) (a : Word) {n k : Nat} {bytes : List Byte} (hn : n + bytes.length ≤ 2^32)
    (hk : k < 2^32) : m.store (a + BitVec.ofNat 32 n) bytes (a + BitVec.ofNat 32 k) =
      if n ≤ k then bytes.getD (k - n) (m (a + BitVec.ofNat 32 k)) else m (a + BitVec.ofNat 32 k) := by
  have hsub : a + BitVec.ofNat 32 k - (a + BitVec.ofNat 32 n) = BitVec.ofNat 32 k - BitVec.ofNat 32 n := by grind
  have hdiff : (BitVec.ofNat 32 k - BitVec.ofNat 32 n).toNat = (2^32 - n % 2^32 + k) % 2^32 := by
    rw [BitVec.toNat_sub, BitVec.toNat_ofNat, BitVec.toNat_ofNat, Nat.mod_eq_of_lt hk]
  rw [store, hsub, hdiff]
  split
  · congr 1
    omega
  · rw [List.getD_eq_getElem?_getD, List.getElem?_eq_none, Option.getD_none]
    omega

theorem store_append (m : Memory) (a : Word) {xs ys : List Byte} (h : xs.length + ys.length ≤ 2^32) :
    (m.store a xs).store (a + BitVec.ofNat 32 xs.length) ys = m.store a (xs ++ ys) := by
  funext x
  obtain ⟨k, hk, rfl⟩ := exists_offset a x
  rw [store_offset _ a h hk]
  simp only [store, add_sub_toNat hk, List.getD_eq_getElem?_getD]
  split
  · rename_i hle
    rw [List.getElem?_append_right hle, List.getElem?_eq_none (l := xs) hle, Option.getD_none]
  · rename_i hlt
    rw [List.getElem?_append_left (by omega)]

theorem store_nil (m : Memory) (a : Word) : m.store a [] = m := by
  funext x
  simp [store]

/-- Copies that adjoin are one store. -/
theorem copyAll_eq_store (m : Memory) (a : Word) {n : Nat} {copies : List (Word × List Byte)} (h : Adjoining n copies)
    (hlen : (copies.flatMap (·.2)).length ≤ 2^32) :
    m.copyAll a copies = m.store (a + BitVec.ofNat 32 n) (copies.flatMap (·.2)) := by
  induction copies generalizing m n with
  | nil => exact (store_nil m _).symm
  | cons copy copies ih =>
    obtain ⟨offset, bytes⟩ := copy
    obtain ⟨rfl, h⟩ := h
    rw [List.flatMap_cons, List.length_append] at hlen
    rw [List.flatMap_cons, ← store_append _ _ hlen, BitVec.add_assoc, ← BitVec.ofNat_add]
    exact ih _ h (by omega)

theorem read_length (m : Memory) (s : Span) : (m.read s).length = s.size.toNat := by simp [read]

theorem read_getElem? (m : Memory) (s : Span) {k : Nat} (h : k < s.size.toNat) :
    (m.read s)[k]? = some (m (s.data + BitVec.ofNat 32 k)) := by
  simp [read, h]

/-- A store within a window, seen as a list. -/
theorem read_store_within (m : Memory) (s : Span) {pre mid post bytes : List Byte} (h : m.read s = pre ++ mid ++ post)
    (hlen : bytes.length = mid.length) :
    (m.store (s.data + BitVec.ofNat 32 pre.length) bytes).read s = pre ++ bytes ++ post := by
  have hsize : s.size.toNat = pre.length + mid.length + post.length := by
    rw [← read_length m s, h, List.length_append, List.length_append]
  have hlt := s.size.isLt
  apply List.ext_getElem?
  intro k
  by_cases hk : k < s.size.toNat
  · have hold := read_getElem? m s hk
    rw [read_getElem? _ s hk, store_offset m s.data (by omega) (by omega)]
    rw [h] at hold
    split
    · rename_i hle
      rw [List.append_assoc, List.getElem?_append_right hle] at hold
      rw [List.append_assoc, List.getElem?_append_right hle, List.getD_eq_getElem?_getD]
      by_cases hin : k - pre.length < bytes.length
      · rw [List.getElem?_append_left hin, List.getElem?_eq_getElem hin, Option.getD_some]
      · rw [List.getElem?_append_right (by omega)] at hold
        rw [List.getElem?_append_right (by omega), List.getElem?_eq_none (by omega), Option.getD_none, hlen, hold]
    · rename_i hlt
      rw [List.append_assoc, List.getElem?_append_left (by omega)] at hold
      rw [List.append_assoc, List.getElem?_append_left (by omega), hold]
  · rw [List.getElem?_eq_none (by rw [read_length]; omega), List.getElem?_eq_none]
    simp only [List.length_append]
    omega

end IoProcessor.Library.Memory
