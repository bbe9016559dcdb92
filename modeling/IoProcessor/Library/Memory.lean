import Mathlib.Logic.Function.Basic
import Mathlib.Tactic.IntervalCases

/-! A flat byte memory with 32-bit addresses and little-endian stores. -/
namespace IoProcessor.Library

abbrev Byte := BitVec 8
abbrev Word := BitVec 32
abbrev Memory := Word → Byte

/-- A window of memory, as `std::span<uint8_t>`: `size_t` has 32 bits. -/
structure Span where
  data : Word
  size : Word
  deriving DecidableEq, Repr, Inhabited

namespace Memory

def read (m : Memory) (s : Span) : List Byte :=
  (List.range s.size.toNat).map (fun i => m (s.data + BitVec.ofNat 32 i))

/-- Bytes stored upwards from an address; addresses wrap at the end of memory. -/
def store (m : Memory) (a : Word) (bytes : List Byte) : Memory :=
  fun x => bytes.getD (x - a).toNat (m x)

/-- The bytes of a value, the least significant one first. -/
def littleEndian {w : Nat} (n : Nat) (v : BitVec w) : List Byte :=
  (List.range n).map (fun i => v.extractLsb' (8*i) 8)

def load32 (m : Memory) (a : Word) : Word := m (a+3) ++ m (a+2) ++ m (a+1) ++ m a

def store32 (m : Memory) (a v : Word) : Memory := m.store a (littleEndian 4 v)

def store8 (m : Memory) (a : Word) (v : Byte) : Memory := m.store a [v]

theorem store8_self (m : Memory) (a : Word) (v : Byte) : m.store8 a v a = v := by
  simp [store8, store]

theorem store8_ne (m : Memory) {a x : Word} (v : Byte) (h : x ≠ a) : m.store8 a v x = m x := by
  have hx : (x - a).toNat ≠ 0 := by
    intro he
    apply h
    rw [← BitVec.sub_add_cancel x a, BitVec.eq_of_toNat_eq (y := 0#32) he, BitVec.zero_add]
  rw [store8, store, List.getD_eq_getElem?_getD, List.getElem?_eq_none, Option.getD_none]
  rw [List.length_singleton]
  omega

/-- Every address is some offset away from a given one. -/
theorem exists_offset (a x : Word) : ∃ k < 2^32, a + BitVec.ofNat 32 k = x :=
  ⟨(x - a).toNat, (x - a).isLt, by
    rw [BitVec.ofNat_toNat, BitVec.setWidth_eq, BitVec.add_comm, BitVec.sub_add_cancel]⟩

theorem add_sub_toNat {a : Word} {k : Nat} (h : k < 2^32) : (a + BitVec.ofNat 32 k - a).toNat = k := by
  rw [BitVec.add_comm, BitVec.add_sub_cancel, BitVec.toNat_ofNat, Nat.mod_eq_of_lt h]

@[simp] theorem littleEndian_length {w : Nat} (n : Nat) (v : BitVec w) :
    (littleEndian n v).length = n := by simp [littleEndian]

/-- A store of bytes that do not wrap, read back at any address. -/
theorem store_apply (m : Memory) (a x : Word) (bytes : List Byte)
    (h : a.toNat + bytes.length ≤ 2^32) :
    m.store a bytes x = if a.toNat ≤ x.toNat then bytes.getD (x.toNat - a.toNat) (m x) else m x := by
  unfold store
  rw [BitVec.toNat_sub]
  have hx := x.isLt
  split
  · congr 1
    omega
  · rw [List.getD_eq_getElem?_getD, List.getElem?_eq_none (by omega), Option.getD_none]

theorem store_outside {m : Memory} {a x : Word} {bytes : List Byte}
    (h : a.toNat + bytes.length ≤ 2^32)
    (hx : x.toNat < a.toNat ∨ a.toNat + bytes.length ≤ x.toNat) : m.store a bytes x = m x := by
  rw [store_apply m a x bytes h]
  split
  · rw [List.getD_eq_getElem?_getD, List.getElem?_eq_none (by omega), Option.getD_none]
  · rfl

/-- The stored bytes, read back as one window. -/
theorem read_store (m : Memory) (s : Span) {bytes : List Byte} (h : bytes.length = s.size.toNat) :
    (m.store s.data bytes).read s = bytes := by
  apply List.ext_getElem
  · simp [read, h]
  · intro i hi hb
    simp only [read, store, List.getElem_map, List.getElem_range]
    rw [add_sub_toNat (by omega)]
    rw [List.getD_eq_getElem?_getD, List.getElem?_eq_getElem hb, Option.getD_some]

/-- Bytes stored one after another. -/
theorem store_concat (m : Memory) (a : Word) {bytes : List Byte} (b : Byte) (h : bytes.length < 2^32) :
    m.store a (bytes ++ [b]) = (m.store a bytes).store8 (a + BitVec.ofNat 32 bytes.length) b := by
  funext x
  obtain ⟨k, hk, rfl⟩ := exists_offset a x
  by_cases he : k = bytes.length
  · subst he
    rw [store8_self, store, add_sub_toNat hk]
    simp
  · have hne : a + BitVec.ofNat 32 k ≠ a + BitVec.ofNat 32 bytes.length := by
      intro hx
      have := congrArg (fun y => (y - a).toNat) hx
      simp only [add_sub_toNat hk, add_sub_toNat h] at this
      exact he this
    rw [store8_ne _ _ hne, store, store, add_sub_toNat hk]
    simp only [List.getD_eq_getElem?_getD]
    rcases Nat.lt_or_gt_of_ne he with hlt | hgt
    · rw [List.getElem?_append_left hlt]
    · rw [List.getElem?_eq_none (by simp; omega), List.getElem?_eq_none (by omega)]

theorem toNat_add_small {a : Word} {k : Nat} (h : a.toNat + k < 2^32) :
    (a + BitVec.ofNat 32 k).toNat = a.toNat + k := by
  rw [BitVec.toNat_add, BitVec.toNat_ofNat, Nat.mod_eq_of_lt (by omega : k < 2^32), Nat.mod_eq_of_lt h]

theorem load32_congr {m n : Memory} {a : Word}
    (h : ∀ k < 4, m (a + BitVec.ofNat 32 k) = n (a + BitVec.ofNat 32 k)) :
    m.load32 a = n.load32 a := by
  have h0 := h 0 (by omega)
  have h1 := h 1 (by omega)
  have h2 := h 2 (by omega)
  have h3 := h 3 (by omega)
  simp only [BitVec.add_zero] at h0
  unfold load32
  rw [h0, show a + 1 = a + BitVec.ofNat 32 1 from rfl, h1, show a + 2 = a + BitVec.ofNat 32 2 from rfl,
    h2, show a + 3 = a + BitVec.ofNat 32 3 from rfl, h3]

/-- A word away from the stored bytes keeps its value. -/
theorem load32_store_outside {m : Memory} {a b : Word} {bytes : List Byte}
    (h : a.toNat + bytes.length ≤ 2^32) (hb : b.toNat + 4 ≤ 2^32)
    (hd : b.toNat + 4 ≤ a.toNat ∨ a.toNat + bytes.length ≤ b.toNat) :
    (m.store a bytes).load32 b = m.load32 b := by
  apply load32_congr
  intro k hk
  apply store_outside h
  rw [toNat_add_small (by omega)]
  omega

private theorem store_littleEndian_apply {w : Nat} (m : Memory) (a : Word) (n k : Nat) (v : BitVec w)
    (hk : k < n) (hn : n ≤ 2^32) :
    m.store a (littleEndian n v) (a + BitVec.ofNat 32 k) = v.extractLsb' (8*k) 8 := by
  simp only [store, add_sub_toNat (show k < 2^32 by omega)]
  simp [littleEndian, hk]

/-- A word reads back as it was stored. -/
@[simp] theorem load32_store32 (m : Memory) (a v : Word) : (m.store32 a v).load32 a = v := by
  have hb (k : Nat) (hk : k < 4) : m.store32 a v (a + BitVec.ofNat 32 k) = v.extractLsb' (8*k) 8 :=
    store_littleEndian_apply m a 4 k v hk (by omega)
  have h0 := hb 0 (by omega)
  simp only [BitVec.add_zero] at h0
  unfold load32
  rw [h0, show a + 1 = a + BitVec.ofNat 32 1 from rfl, hb 1 (by omega),
    show a + 2 = a + BitVec.ofNat 32 2 from rfl, hb 2 (by omega),
    show a + 3 = a + BitVec.ofNat 32 3 from rfl, hb 3 (by omega)]
  apply BitVec.eq_of_getLsbD_eq
  intro i hi
  simp only [BitVec.getLsbD_append, BitVec.getLsbD_extractLsb']
  grind

theorem word_toNat {a : Word} {n i : Nat} (ha : a.toNat + 4*n ≤ 2^32) (hi : i < n) :
    (a + 4 * BitVec.ofNat 32 i).toNat = a.toNat + 4*i := by
  rw [show 4 * BitVec.ofNat 32 i = BitVec.ofNat 32 (4*i) from (BitVec.ofNat_mul ..).symm]
  exact toNat_add_small (by omega)

/-- A store to one word of a record. -/
theorem load32_words_store32 (m : Memory) {a : Word} {n : Nat} (ha : a.toNat + 4*n ≤ 2^32) (i : Fin n) (v : Word) :
    (fun j : Fin n => (m.store32 (a + 4 * BitVec.ofNat 32 i) v).load32 (a + 4 * BitVec.ofNat 32 j)) =
      Function.update (fun j : Fin n => m.load32 (a + 4 * BitVec.ofNat 32 j)) i v := by
  funext j
  by_cases h : j = i
  · rw [h, Function.update_self, load32_store32]
  · rw [Function.update_of_ne h]
    have hne : j.val ≠ i.val := fun he => h (Fin.ext he)
    have hi := word_toNat ha i.isLt
    have hj := word_toNat ha j.isLt
    refine load32_store_outside ?_ (by omega) ?_
    · rw [littleEndian_length]
      omega
    · rw [littleEndian_length]
      omega

/-- The bytes of a word, from the lowest address up. -/
theorem load32_byte (m : Memory) (a : Word) (k : Nat) (hk : k < 4) :
    (m.load32 a).extractLsb' (8*k) 8 = m (a + BitVec.ofNat 32 k) := by
  have hl : m.load32 a = m (a + BitVec.ofNat 32 3) ++ m (a + BitVec.ofNat 32 2) ++
      m (a + BitVec.ofNat 32 1) ++ m (a + BitVec.ofNat 32 0) := by
    simp only [load32, BitVec.ofNat_eq_ofNat, BitVec.add_zero]
  apply BitVec.eq_of_getLsbD_eq
  intro i hi
  simp only [BitVec.getLsbD_extractLsb', hl, BitVec.getLsbD_append]
  interval_cases k <;> grind

/-- Storing what is there already changes nothing. -/
theorem store32_load32 (m : Memory) (a : Word) : m.store32 a (m.load32 a) = m := by
  funext x
  obtain ⟨k, hk, rfl⟩ := exists_offset a x
  by_cases h4 : k < 4
  · rw [store32, store_littleEndian_apply m a 4 k _ h4 (by omega), load32_byte m a k h4]
  · simp only [store32, store, add_sub_toNat hk]
    simp [littleEndian, h4]

theorem byte_eq_of_load32_eq {m n : Memory} {a : Word} (h : m.load32 a = n.load32 a) {k : Nat} (hk : k < 4) :
    m (a + BitVec.ofNat 32 k) = n (a + BitVec.ofNat 32 k) := by
  rw [← load32_byte m a k hk, h, load32_byte n a k hk]

/-- A store keeps a region that it lies in exactly when the bytes are there
already. -/
theorem store_keeps_iff {m : Memory} {a : Word} {bytes : List Byte} (h : bytes.length < 2^32) {R : Word → Prop}
    (hR : ∀ k < bytes.length, R (a + BitVec.ofNat 32 k)) :
    (∀ x, R x → m.store a bytes x = m x) ↔ m.read ⟨a, BitVec.ofNat 32 bytes.length⟩ = bytes := by
  have hlen : (BitVec.ofNat 32 bytes.length).toNat = bytes.length := by
    rw [BitVec.toNat_ofNat, Nat.mod_eq_of_lt h]
  have hread : m.read ⟨a, BitVec.ofNat 32 bytes.length⟩ = bytes ↔
      ∀ k (hk : k < bytes.length), m (a + BitVec.ofNat 32 k) = bytes[k] := by
    rw [List.ext_getElem_iff]
    simp [read, hlen]
  rw [hread]
  constructor
  · intro hs k hk
    rw [← hs _ (hR k hk), store, add_sub_toNat (by omega), List.getD_eq_getElem?_getD,
      List.getElem?_eq_getElem hk, Option.getD_some]
  · intro hs x _
    obtain ⟨k, hk, rfl⟩ := exists_offset a x
    rw [store, add_sub_toNat hk, List.getD_eq_getElem?_getD]
    by_cases hb : k < bytes.length
    · rw [List.getElem?_eq_getElem hb, Option.getD_some, hs k hb]
    · rw [List.getElem?_eq_none (by omega), Option.getD_none]

end Memory
end IoProcessor.Library
