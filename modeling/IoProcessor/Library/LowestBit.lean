import Mathlib.Data.Nat.Bitwise

/-! The lowest bit set in a number, and how `n & (n - 1)` takes it out. -/
namespace IoProcessor.Library.LowestBit
variable {n k : Nat}

/-- Bit k is set and none below it. -/
structure Lowest (n k : Nat) : Prop where
  set : n.testBit k = true
  below : ∀ j < k, n.testBit j = false

theorem Lowest.mod_eq (h : Lowest n k) : n % 2^(k+1) = 2^k := by
  apply Nat.eq_of_testBit_eq
  intro j
  rw [Nat.testBit_mod_two_pow, Nat.testBit_two_pow]
  rcases Nat.lt_trichotomy j k with hj | rfl | hj
  · simp [h.below j hj]; omega
  · simp [h.set]
  · simp [show ¬ j < k + 1 by omega]; omega

/-- Above bit k nothing changes, and the borrow stops there. -/
theorem Lowest.pred_eq (h : Lowest n k) : n - 1 = 2^(k+1) * (n / 2^(k+1)) + (2^k - 1) := by
  have hdiv := Nat.div_add_mod n (2^(k+1))
  have hpos : 0 < 2^k := Nat.two_pow_pos k
  rw [h.mod_eq] at hdiv
  omega

theorem Lowest.testBit_and_pred (h : Lowest n k) (i : Nat) :
    (n &&& (n - 1)).testBit i = (n.testBit i && decide (i ≠ k)) := by
  have hpow : 2^k < 2^(k+1) := Nat.pow_lt_pow_right (by omega) (by omega)
  have hn : n = 2^(k+1) * (n / 2^(k+1)) + 2^k := by
    rw [← h.mod_eq, Nat.div_add_mod]
  rw [Nat.testBit_and, h.pred_eq]
  generalize n / 2^(k+1) = high at hn
  rw [hn, Nat.testBit_two_pow_mul_add _ hpow, Nat.testBit_two_pow_mul_add _ (by omega), Nat.testBit_two_pow,
    Nat.testBit_two_pow_sub_one]
  rcases Nat.lt_trichotomy i k with hi | rfl | hi
  · simp [show i < k + 1 by omega, show k ≠ i by omega]
  · simp
  · simp [show ¬ i < k + 1 by omega, show i ≠ k by omega]

/-- The bits set below a width, in ascending order: the lowest one is the first,
and taking it out leaves the others. -/
theorem Lowest.filter_range (h : Lowest n k) {w : Nat} (hk : k < w) :
    (List.range w).filter n.testBit = k :: (List.range w).filter (n &&& (n - 1)).testBit := by
  have hrange : List.range w = List.range k ++ k :: (List.range (w - k - 1)).map (k + 1 + ·) := by
    obtain ⟨d, rfl⟩ := Nat.exists_eq_add_of_lt hk
    rw [Nat.add_assoc, List.range_add, Nat.add_comm d 1, List.range_add, List.map_append]
    simp [Nat.add_assoc]
  have hlow : (List.range k).filter n.testBit = [] := by
    rw [List.filter_eq_nil_iff]
    intro j hj
    simp [h.below j (List.mem_range.mp hj)]
  have hlow' : (List.range k).filter (n &&& (n - 1)).testBit = [] := by
    rw [List.filter_eq_nil_iff]
    intro j hj
    simp [h.testBit_and_pred, h.below j (List.mem_range.mp hj)]
  have hhigh : ((List.range (w - k - 1)).map (k + 1 + ·)).filter (n &&& (n - 1)).testBit =
      ((List.range (w - k - 1)).map (k + 1 + ·)).filter n.testBit := by
    refine List.filter_congr fun j hj => ?_
    obtain ⟨i, -, rfl⟩ := List.mem_map.mp hj
    rw [h.testBit_and_pred, decide_eq_true (by omega), Bool.and_true]
  have hself : ¬ (n &&& (n - 1)).testBit k = true := by
    rw [h.testBit_and_pred]
    simp
  rw [hrange, List.filter_append, List.filter_append, hlow, hlow', List.filter_cons_of_pos h.set,
    List.filter_cons_of_neg hself, hhigh]
  rfl

end IoProcessor.Library.LowestBit
