import Mathlib.Tactic.Ring
import IoProcessor.Library.Memory

/-! Python's struct module for the standard little-endian formats of unsigned
fields, and what its bytes are to a little-endian memory. -/
namespace IoProcessor.Library.Struct
open Memory

/-- The exceptions that packing code raises. -/
inductive Error where
  | valueError
  | structError
  deriving DecidableEq, Repr

/-- The format characters. -/
inductive Code where
  | H | I
  deriving DecidableEq, Repr

def Code.size : Code → Nat
  | .H => 2
  | .I => 4

/-- The integer is in the range of the field. -/
def Fits (c : Code) (v : Int) : Prop := 0 ≤ v ∧ v < 2^(8 * c.size)

instance (c : Code) (v : Int) : Decidable (Fits c v) := inferInstanceAs (Decidable (_ ∧ _))

def packField (c : Code) (v : Int) : Except Error (List Byte) :=
  if Fits c v then .ok (littleEndian c.size (BitVec.ofInt (8 * c.size) v)) else .error .structError

def pack : List (Code × Int) → Except Error (List Byte)
  | [] => .ok []
  | (c, v) :: fields =>
    match packField c v with
    | .error e => .error e
    | .ok bytes => (pack fields).map (bytes ++ ·)

/-- The number whose bytes these are, the least significant one first. -/
def value : List Byte → Nat
  | [] => 0
  | b :: bytes => b.toNat + 256 * value bytes

def unpack : List Code → List Byte → Except Error (List Nat)
  | [], bytes => if bytes = [] then .ok [] else .error .structError
  | c :: codes, bytes =>
    if bytes.length < c.size then .error .structError
    else (unpack codes (bytes.drop c.size)).map (value (bytes.take c.size) :: ·)

/-- Packing fails exactly when a field is out of range. -/
theorem pack_spec (fields : List (Code × Int)) :
    ((∀ f ∈ fields, Fits f.1 f.2) ∧
      pack fields = .ok (fields.flatMap fun f => littleEndian f.1.size (BitVec.ofInt (8 * f.1.size) f.2))) ∨
    (¬ (∀ f ∈ fields, Fits f.1 f.2) ∧ pack fields = .error .structError) := by
  induction fields with
  | nil => exact .inl ⟨by simp, rfl⟩
  | cons f fields ih =>
    obtain ⟨c, v⟩ := f
    by_cases hf : Fits c v
    · rcases ih with ⟨hall, hp⟩ | ⟨hall, hp⟩
      · exact .inl ⟨by simpa [hf] using hall, by simp [pack, packField, hf, hp, Except.map]⟩
      · exact .inr ⟨by simpa [hf] using hall, by simp [pack, packField, hf, hp, Except.map]⟩
    · exact .inr ⟨fun h => hf (h (c, v) (by simp)), by simp [pack, packField, hf]⟩

theorem value_append (xs ys : List Byte) : value (xs ++ ys) = value xs + 256^xs.length * value ys := by
  induction xs with
  | nil => simp [value]
  | cons b xs ih =>
    simp only [List.cons_append, value, ih, List.length_cons, pow_succ]
    ring

/-- The value of the low bytes. -/
theorem value_littleEndian {w : Nat} (n : Nat) (v : BitVec w) : value (littleEndian n v) = v.toNat % 256^n := by
  induction n with
  | zero => simp [littleEndian, value, Nat.mod_one]
  | succ n ih =>
    have hlast : littleEndian (n+1) v = littleEndian n v ++ [v.extractLsb' (8*n) 8] := by
      simp [littleEndian, List.range_succ]
    have hbyte : (v.extractLsb' (8*n) 8).toNat = v.toNat / 256^n % 256 := by
      rw [BitVec.extractLsb'_toNat, Nat.shiftRight_eq_div_pow, Nat.pow_mul]
    rw [hlast, value_append, ih, littleEndian_length, value, value, hbyte, Nat.mul_zero, Nat.add_zero, pow_succ,
      Nat.mod_mul]

/-- A field that fits reads back as it was packed. -/
theorem value_packed {c : Code} {v : Int} (h : Fits c v) :
    (value (littleEndian c.size (BitVec.ofInt (8 * c.size) v)) : Int) = v := by
  have hpow : 256^c.size = 2^(8 * c.size) := (Nat.pow_mul 2 8 c.size).symm
  rw [value_littleEndian, hpow, Nat.mod_eq_of_lt (BitVec.isLt _), BitVec.toNat_ofInt, Int.toNat_of_nonneg]
  · exact Int.emod_eq_of_lt h.1 h.2
  · exact Int.emod_nonneg _ (Int.natCast_ne_zero.mpr (Nat.two_pow_pos _).ne')

theorem value_load32 (m : Memory) (a : Word) :
    value [m a, m (a + 1), m (a + 2), m (a + 3)] = (m.load32 a).toNat := by
  have h := value_littleEndian 4 (m.load32 a)
  have hb : littleEndian 4 (m.load32 a) = [m a, m (a + 1), m (a + 2), m (a + 3)] := by
    have hz : (0 : Nat) < 4 := by omega
    simp only [littleEndian, List.range_succ, List.range_zero, List.map_nil, List.nil_append, List.map_cons,
      List.cons_append]
    rw [load32_byte m a 0 hz, load32_byte m a 1 (by omega), load32_byte m a 2 (by omega), load32_byte m a 3 (by omega)]
    simp
  rw [← hb, h]
  exact Nat.mod_eq_of_lt (m.load32 a).isLt

/-- The bytes from an address up. -/
private def window (m : Memory) (n : Nat) (a : Word) : List Byte :=
  (List.range n).map fun i => m (a + BitVec.ofNat 32 i)

private theorem window_succ (m : Memory) (n : Nat) (a : Word) :
    window m (4 * (n+1)) a = [m a, m (a + 1), m (a + 2), m (a + 3)] ++ window m (4 * n) (a + 4) := by
  rw [window, Nat.mul_succ, Nat.add_comm, List.range_add, List.map_append]
  congr 1
  · simp [List.range_succ]
  · rw [window, List.map_map]
    refine List.map_congr_left fun i _ => ?_
    rw [Function.comp, BitVec.ofNat_add, BitVec.add_assoc]
    rfl

/-- A format of words read from memory. -/
theorem unpack_read (m : Memory) (a : Word) {n : Nat} (h : 4 * n < 2^32) :
    unpack (List.replicate n .I) (m.read ⟨a, BitVec.ofNat 32 (4 * n)⟩) =
      .ok ((List.range n).map fun i => (m.load32 (a + 4 * BitVec.ofNat 32 i)).toNat) := by
  have hread : m.read ⟨a, BitVec.ofNat 32 (4 * n)⟩ = window m (4 * n) a := by
    rw [Memory.read, BitVec.toNat_ofNat, Nat.mod_eq_of_lt h, window]
  rw [hread]
  clear hread h
  induction n generalizing a with
  | zero => rfl
  | succ n ih =>
    rw [List.replicate_succ, window_succ, unpack, if_neg (by simp [Code.size])]
    have htake : ([m a, m (a + 1), m (a + 2), m (a + 3)] ++ window m (4 * n) (a + 4)).take Code.I.size =
        [m a, m (a + 1), m (a + 2), m (a + 3)] := rfl
    have hdrop : ([m a, m (a + 1), m (a + 2), m (a + 3)] ++ window m (4 * n) (a + 4)).drop Code.I.size =
        window m (4 * n) (a + 4) := rfl
    rw [htake, hdrop, ih, value_load32, List.range_succ_eq_map, List.map_cons, List.map_map]
    have hzero : a + 4 * BitVec.ofNat 32 0 = a := by simp
    have hnext (i : Nat) : a + 4 + 4 * BitVec.ofNat 32 i = a + 4 * BitVec.ofNat 32 (i+1) := by
      rw [BitVec.ofNat_add, BitVec.mul_add, BitVec.add_assoc, BitVec.add_comm 4]
      rfl
    simp only [Except.map, hzero, hnext]
    rfl

private theorem getD_words (ws : List Word) {i k : Nat} (hi : i < ws.length) (hk : k < 4) (d : Byte) :
    (ws.flatMap (littleEndian 4)).getD (4*i + k) d = (ws[i]).extractLsb' (8*k) 8 := by
  induction ws generalizing i with
  | nil => simp at hi
  | cons w ws ih =>
    rw [List.flatMap_cons, List.getD_eq_getElem?_getD]
    cases i with
    | zero =>
      rw [List.getElem?_append_left (by simpa using hk)]
      simp [littleEndian, hk]
    | succ i =>
      rw [List.getElem?_append_right (by simp; omega), littleEndian_length, ← List.getD_eq_getElem?_getD,
        show 4*(i+1) + k - 4 = 4*i + k by omega]
      simpa using ih (by simpa using hi)

/-- A record of words, stored at once and read word by word. -/
theorem load32_store_words (m : Memory) (a : Word) {ws : List Word} (hw : 4 * ws.length < 2^32) {i : Nat}
    (hi : i < ws.length) : (m.store a (ws.flatMap (littleEndian 4))).load32 (a + 4 * BitVec.ofNat 32 i) = ws[i] := by
  rw [← load32_store32 m (a + 4 * BitVec.ofNat 32 i) ws[i]]
  refine load32_congr fun k hk => ?_
  have haddr : a + 4 * BitVec.ofNat 32 i + BitVec.ofNat 32 k = a + BitVec.ofNat 32 (4*i + k) := by
    rw [BitVec.ofNat_add, BitVec.ofNat_mul, BitVec.add_assoc]
    rfl
  have hl : (m.store a (ws.flatMap (littleEndian 4))) (a + BitVec.ofNat 32 (4*i + k)) = ws[i].extractLsb' (8*k) 8 := by
    rw [store, add_sub_toNat (by omega), getD_words ws hi hk]
  have hr : m.store32 (a + 4 * BitVec.ofNat 32 i) ws[i] (a + 4 * BitVec.ofNat 32 i + BitVec.ofNat 32 k) =
      ws[i].extractLsb' (8*k) 8 := by
    rw [store32, store, add_sub_toNat (by omega)]
    simp [littleEndian, hk]
  rw [hr, haddr, hl]

/-- A format of words packs the words. -/
theorem pack_words (vs : List Int) :
    ((∀ v ∈ vs, Fits .I v) ∧ pack (vs.map (.I, ·)) = .ok ((vs.map (BitVec.ofInt 32)).flatMap (littleEndian 4))) ∨
    (¬ (∀ v ∈ vs, Fits .I v) ∧ pack (vs.map (.I, ·)) = .error .structError) := by
  have h := pack_spec (vs.map (Code.I, ·))
  simp only [List.forall_mem_map, List.flatMap_map] at h
  rw [List.flatMap_map]
  exact h

end IoProcessor.Library.Struct
