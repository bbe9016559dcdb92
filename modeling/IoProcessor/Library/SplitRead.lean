import Mathlib.Order.WellFounded
import Mathlib.Order.Monotone.Basic
import Mathlib.Logic.Function.Basic

/-! A counter of two parts that is read one part at a time while it advances:
high, low and high again, until both high parts agree. -/
namespace IoProcessor.Library.SplitRead
variable {τ α β γ ν : Type*} [DecidableEq β] (high : α → β) (low : α → γ) (counter : τ → α) (time : Nat → τ)

/-- The loop from access `k` on, with the access behind its last one. -/
def readLoop : (fuel k : Nat) → Option ((β × γ) × Nat)
  | 0, _ => none
  | fuel+1, k =>
    let before := high (counter (time k))
    let lo := low (counter (time (k+1)))
    let after := high (counter (time (k+2)))
    if before = after then some ((before, lo), k+3) else readLoop fuel (k+3)

variable {high low counter time}

/-- The loop exits behind accesses whose high parts agree. -/
theorem readLoop_exit {fuel k n : Nat} {r : β × γ} (h : readLoop high low counter time fuel k = some (r, n)) :
    ∃ j, k ≤ j ∧ n = j+3 ∧ high (counter (time j)) = high (counter (time (j+2))) ∧
      r = (high (counter (time j)), low (counter (time (j+1)))) := by
  induction fuel generalizing k with
  | zero => cases h
  | succ fuel ih =>
    rw [readLoop] at h
    split at h
    · rename_i he
      obtain ⟨rfl, rfl⟩ := Prod.mk.inj (Option.some.inj h)
      exact ⟨k, le_rfl, rfl, he, rfl⟩
    · obtain ⟨j, hj, hn, he, hr⟩ := ih h
      exact ⟨j, by omega, hn, he, hr⟩

section Order
variable [PartialOrder ν] {rank : β → ν} (hrank : Function.Injective rank)
  (hadvance : Monotone fun k => rank (high (counter (time k))))
include hrank hadvance

/-- What is read is the counter at the moment of the low access. -/
theorem readLoop_untorn {fuel k n : Nat} {r : β × γ} (h : readLoop high low counter time fuel k = some (r, n)) :
    ∃ j, k ≤ j ∧ n = j+3 ∧ r = (high (counter (time (j+1))), low (counter (time (j+1)))) := by
  obtain ⟨j, hj, hn, he, hr⟩ := readLoop_exit h
  have hbefore := hadvance (Nat.le_succ j)
  have hafter := hadvance (Nat.le_succ (j+1))
  have hsame : high (counter (time (j+1))) = high (counter (time j)) := by
    refine hrank (le_antisymm ?_ hbefore)
    rw [he]
    exact hafter
  exact ⟨j, hj, hn, by rw [hr, hsame]⟩

/-- The high part can advance only so often, so that the loop does exit. -/
theorem readLoop_exits [WellFoundedGT ν] (k : Nat) : ∃ fuel r, readLoop high low counter time fuel k = some r := by
  induction hv : rank (high (counter (time k))) using WellFoundedGT.induction generalizing k with
  | ind v ih =>
    by_cases he : high (counter (time k)) = high (counter (time (k+2)))
    · exact ⟨1, ((high (counter (time k)), low (counter (time (k+1)))), k+3), if_pos he⟩
    · have hle := hadvance (show k ≤ k+2 by omega)
      have hnext := hadvance (show k+2 ≤ k+3 by omega)
      have hlt : v < rank (high (counter (time (k+3)))) := by
        rw [← hv]
        exact lt_of_lt_of_le (lt_of_le_of_ne hle fun hr => he (hrank hr)) hnext
      obtain ⟨fuel, r, hr⟩ := ih _ hlt (k+3) rfl
      refine ⟨fuel+1, r, ?_⟩
      rw [readLoop, if_neg he, hr]

end Order

/-- A round that does not exit has seen the high part advance, so that the values
of the high part bound the rounds. -/
theorem readLoop_exits_within {rank : β → Nat} (hrank : Function.Injective rank)
    (hadvance : Monotone fun k => rank (high (counter (time k)))) {bound : Nat} (hbound : ∀ b, rank b < bound)
    {fuel k : Nat} (h : bound ≤ fuel + rank (high (counter (time k)))) :
    (readLoop high low counter time fuel k).isSome := by
  induction fuel generalizing k with
  | zero =>
    have := hbound (high (counter (time k)))
    omega
  | succ fuel ih =>
    rw [readLoop]
    split
    · rfl
    · rename_i hne
      have hle : rank (high (counter (time k))) ≤ rank (high (counter (time (k+2)))) := hadvance (by omega)
      have hnext : rank (high (counter (time (k+2)))) ≤ rank (high (counter (time (k+3)))) := hadvance (by omega)
      have hdiffer : rank (high (counter (time k))) ≠ rank (high (counter (time (k+2)))) := fun he => hne (hrank he)
      exact ih (by omega)

end IoProcessor.Library.SplitRead
