import Mathlib.Algebra.Order.Ring.Nat
import Mathlib.Tactic.Common

/-! A periodic deadline. Who serves it moves it on by one period, or to one
period from now where that has passed as well. -/
namespace IoProcessor.Library.Deadline
variable {p next now start k : Nat}

def rearm (p next now : Nat) : Nat := if next + p ≤ now then now + p else next + p

theorem rearm_of_lt (h : now < next + p) : rearm p next now = next + p := if_neg (Nat.not_le.mpr h)

/-- The deadline is ahead, whoever comes late. -/
theorem lt_rearm (hp : 0 < p) : now < rearm p next now := by
  unfold rearm
  split <;> omega

/-- It is at most one period ahead, unless it is served too early. -/
theorem rearm_le (h : next ≤ now) : rearm p next now ≤ now + p := by
  unfold rearm
  split <;> omega

/-- No deadline is served twice. -/
theorem le_rearm : next + p ≤ rearm p next now := by
  unfold rearm
  split <;> omega

/-- The grid of deadlines counts the periods, for who is served in time. -/
theorem div_eq_of_in_time (hp : 0 < p) (hd : next = start + (k + 1) * p) (hn : next ≤ now) (hl : now < next + p) :
    (now - start) / p = k + 1 := by
  rw [Nat.div_eq_iff hp]
  constructor
  · omega
  · have : now - start < (k + 1) * p + p := by omega
    omega

/-- Who is served a period late has missed one. -/
theorem lt_div_of_late (hp : 0 < p) (hd : next = start + (k + 1) * p) (hl : next + p ≤ now) :
    k + 1 < (now - start) / p := by
  have h : (k + 1 + 1) * p ≤ now - start := by
    rw [Nat.succ_mul]
    omega
  exact (Nat.le_div_iff_mul_le hp).mpr h

end IoProcessor.Library.Deadline
