import Mathlib.Algebra.Group.Nat.Defs
import Mathlib.Data.List.Basic
import Mathlib.Tactic.Common

/-! Numerals as loops write them: a given number of digits from the highest, or
digits from the lowest while the value is not zero. -/
namespace IoProcessor.Library.Numeral

/-- The low digits of a value, the highest first. -/
def fixed (base : Nat) : Nat → Nat → List Char
  | 0, _ => []
  | width+1, value => fixed base width (value / base) ++ [Nat.digitChar (value % base)]

/-- The digits of a value, the lowest first, at most as many as there is room. -/
def lowestFirst (base : Nat) : Nat → Nat → List Char
  | 0, _ => []
  | room+1, value =>
    Nat.digitChar (value % base) :: if value / base ≠ 0 then lowestFirst base room (value / base) else []

variable {base : Nat}

theorem fixed_zero (width : Nat) : fixed base width 0 = List.replicate width '0' := by
  induction width with
  | zero => rfl
  | succ width ih => simp [fixed, ih, List.replicate_succ', Nat.digitChar]

private theorem quotient_fits {width value : Nat} (hpos : 0 < base) (hv : base ≤ value)
    (h : value < base ^ (width + 1)) : width ≠ 0 ∧ value / base < base ^ width := by
  have hq : value / base < base ^ width := by
    rw [Nat.div_lt_iff_lt_mul hpos, ← Nat.pow_succ]
    exact h
  refine ⟨?_, hq⟩
  rintro rfl
  have := Nat.div_pos hv hpos
  rw [Nat.pow_zero] at hq
  omega

/-- A numeral of fixed width is the usual one behind zeros. -/
theorem fixed_eq_leftpad (hb : 1 < base) {width value : Nat} (hw : width ≠ 0) (h : value < base ^ width) :
    fixed base width value = (Nat.toDigits base value).leftpad width '0' := by
  induction width generalizing value with
  | zero => exact absurd rfl hw
  | succ width ih =>
    by_cases hv : value < base
    · rw [fixed, Nat.div_eq_of_lt hv, fixed_zero, Nat.mod_eq_of_lt hv, Nat.toDigits_of_lt_base hv]
      simp [List.leftpad]
    · obtain ⟨hw', hq⟩ := quotient_fits (by omega) (Nat.le_of_not_lt hv) h
      rw [fixed, ih hw' hq, Nat.toDigits_of_base_le hb (Nat.le_of_not_lt hv)]
      simp [List.leftpad]

/-- With room for all digits the loop yields the usual numeral, backwards. -/
theorem lowestFirst_reverse (hb : 1 < base) {room value : Nat} (hr : room ≠ 0) (h : value < base ^ room) :
    (lowestFirst base room value).reverse = Nat.toDigits base value := by
  induction room generalizing value with
  | zero => exact absurd rfl hr
  | succ room ih =>
    rw [lowestFirst]
    by_cases hv : value < base
    · rw [if_neg (by simp [Nat.div_eq_of_lt hv]), Nat.mod_eq_of_lt hv, Nat.toDigits_of_lt_base hv,
        List.reverse_singleton]
    · have hpos : 0 < value / base := Nat.div_pos (Nat.le_of_not_lt hv) (by omega)
      obtain ⟨hr', hq⟩ := quotient_fits (by omega) (Nat.le_of_not_lt hv) h
      rw [if_pos (by omega), List.reverse_cons, ih hr' hq, Nat.toDigits_of_base_le hb (Nat.le_of_not_lt hv)]

theorem digit_of_mem_toDigits (hb : 1 < base) {value : Nat} {c : Char} (h : c ∈ Nat.toDigits base value) :
    ∃ d, c = Nat.digitChar d := by
  induction value using Nat.strongRecOn with
  | ind value ih =>
    by_cases hv : value < base
    · rw [Nat.toDigits_of_lt_base hv, List.mem_singleton] at h
      exact ⟨value, h⟩
    · rw [Nat.toDigits_of_base_le hb (Nat.le_of_not_lt hv), List.mem_append, List.mem_singleton] at h
      rcases h with h | h
      · exact ih _ (Nat.div_lt_self (by omega) hb) h
      · exact ⟨_, h⟩

end IoProcessor.Library.Numeral
