import Mathlib.Data.Nat.ModEq

/-! Free-running indices: counters that wrap at the width of their type, whose
difference counts entries and whose low bits name a slot of a ring. -/
namespace IoProcessor.Library.FreeRunning
variable {w : Nat}

/-- The index after n increments. -/
def index (start : BitVec w) (n : Nat) : BitVec w := start + BitVec.ofNat w n

theorem index_zero (start : BitVec w) : index start 0 = start := by
  simp [index]

theorem index_succ (start : BitVec w) (n : Nat) : index start (n+1) = index start n + 1#w := by
  rw [index, index, BitVec.add_assoc, BitVec.ofNat_add]

/-- Modular subtraction counts the increments between two indices. -/
theorem index_sub {start : BitVec w} {c p : Nat} (h : c ≤ p) (hp : p - c < 2^w) :
    (index start p - index start c).toNat = p - c := by
  have he : index start p = index start c + BitVec.ofNat w (p - c) := by
    rw [index, index, BitVec.add_assoc, ← BitVec.ofNat_add, Nat.add_sub_cancel' h]
  rw [he, BitVec.add_comm, BitVec.add_sub_cancel, BitVec.toNat_ofNat, Nat.mod_eq_of_lt hp]

/-- The low k bits. -/
def slot (k : Nat) (i : BitVec w) : BitVec w := i &&& BitVec.ofNat w (2^k - 1)

theorem slot_toNat {k : Nat} (hk : k ≤ w) (i : BitVec w) : (slot k i).toNat = i.toNat % 2^k := by
  have hp : 2^k ≤ 2^w := Nat.pow_le_pow_right (by omega) hk
  have h0 : 0 < 2^k := Nat.two_pow_pos k
  rw [slot, BitVec.toNat_and, BitVec.toNat_ofNat, Nat.mod_eq_of_lt (by omega), Nat.and_two_pow_sub_one_eq_mod]

/-- Entries less than a ring's size apart are in different slots. -/
theorem slot_injective {k : Nat} (hk : k ≤ w) {start : BitVec w} {c p : Nat} (h : c ≤ p) (hp : p - c < 2^k)
    (he : slot k (index start p) = slot k (index start c)) : p = c := by
  have hn := congrArg BitVec.toNat he
  have hdvd : 2^k ∣ 2^w := Nat.pow_dvd_pow 2 hk
  rw [slot_toNat hk, slot_toNat hk, index, index, BitVec.toNat_add, BitVec.toNat_add, BitVec.toNat_ofNat,
    BitVec.toNat_ofNat, Nat.mod_mod_of_dvd _ hdvd, Nat.mod_mod_of_dvd _ hdvd] at hn
  have hm (n : Nat) : start.toNat + n % 2^w ≡ start.toNat + n [MOD 2^k] :=
    ((Nat.mod_modEq n (2^w)).of_dvd hdvd).add_left _
  have hpc : start.toNat + p ≡ start.toNat + c [MOD 2^k] :=
    (hm p).symm.trans ((show _ ≡ _ [MOD 2^k] from hn).trans (hm c))
  have hd := (Nat.modEq_iff_dvd' h).mp (Nat.ModEq.add_left_cancel' _ hpc).symm
  have := Nat.eq_zero_of_dvd_of_lt hd hp
  omega

end IoProcessor.Library.FreeRunning
