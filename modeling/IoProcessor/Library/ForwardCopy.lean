import IoProcessor.Library.Memory

/-! A byte loop that copies upwards, over ranges that may overlap. -/
namespace IoProcessor.Library.Memory

/-- Byte by byte, each read behind the stores before it. -/
def copyUp (m : Memory) (dst src : Word) : Nat → Memory
  | 0 => m
  | n+1 => (m.copyUp dst src n).store8 (dst + BitVec.ofNat 32 n) (m.copyUp dst src n (src + BitVec.ofNat 32 n))

section
variable (m : Memory) (dst src : Word) {n : Nat}

/-- A byte outside the destination keeps its value. -/
theorem copyUp_outside {x : Word} (h : n ≤ (x - dst).toNat) : m.copyUp dst src n x = m x := by
  induction n with
  | zero => rfl
  | succ n ih =>
    have hne : x ≠ dst + BitVec.ofNat 32 n := by
      rintro rfl
      have hlt := (dst + BitVec.ofNat 32 n - dst).isLt
      rw [add_sub_toNat (by omega)] at h
      omega
    rw [copyUp, store8_ne _ _ hne, ih (by omega)]

/-- A byte of the destination, as it was read on its turn. -/
theorem copyUp_apply {k : Nat} (hk : k < n) (hn : n ≤ 2^32) :
    m.copyUp dst src n (dst + BitVec.ofNat 32 k) = m.copyUp dst src k (src + BitVec.ofNat 32 k) := by
  induction n with
  | zero => omega
  | succ n ih =>
    rw [copyUp]
    rcases Nat.lt_succ_iff_lt_or_eq.mp hk with hlt | rfl
    · have hne : dst + BitVec.ofNat 32 k ≠ dst + BitVec.ofNat 32 n := by
        intro he
        have hoffset := congrArg (fun x => (x - dst).toNat) he
        simp only [add_sub_toNat (show k < 2^32 by omega), add_sub_toNat (show n < 2^32 by omega)] at hoffset
        omega
      rw [store8_ne _ _ hne, ih hlt (by omega)]
    · exact store8_self ..

/-- The distance back from the destination to a byte of the source. -/
theorem source_offset (k : Nat) :
    (src + BitVec.ofNat 32 k - dst).toNat = (k + (2^32 - (dst - src).toNat)) % 2^32 := by
  have hd := dst.isLt
  have hs := src.isLt
  simp only [BitVec.toNat_sub, BitVec.toNat_add, BitVec.toNat_ofNat]
  omega

/-- The copy is faithful when the destination does not begin inside the source,
or begins with it. -/
theorem copyUp_faithful (h : dst = src ∨ n ≤ (dst - src).toNat) {k : Nat} (hk : k < n) (hn : n ≤ 2^32) :
    m.copyUp dst src n (dst + BitVec.ofNat 32 k) = m (src + BitVec.ofNat 32 k) := by
  rw [copyUp_apply m dst src hk hn]
  apply copyUp_outside
  rw [source_offset]
  rcases h with rfl | h
  · simp
    omega
  · have hlt := (dst - src).isLt
    rw [Nat.mod_eq_of_lt (by omega)]
    omega

/-- Otherwise the first byte of the source comes out again behind itself. -/
theorem copyUp_smears (h0 : dst ≠ src) (h : (dst - src).toNat < n) (hn : n ≤ 2^32) :
    m.copyUp dst src n (dst + (dst - src)) = m src := by
  have hpos : 0 < (dst - src).toNat := by
    refine Nat.pos_of_ne_zero fun hz => h0 ?_
    rw [← BitVec.sub_add_cancel dst src, BitVec.eq_of_toNat_eq (y := 0#32) hz, BitVec.zero_add]
  have hself (x : Word) : BitVec.ofNat 32 x.toNat = x := BitVec.eq_of_toNat_eq (by simp)
  have hfirst := copyUp_apply m dst src h hn
  rw [hself, BitVec.add_comm src, BitVec.sub_add_cancel] at hfirst
  rw [hfirst]
  have hzero := copyUp_apply m dst src hpos (by omega)
  simpa [copyUp] using hzero

end
end IoProcessor.Library.Memory
