import Mathlib.Data.List.Basic

/-! Noninterference by unwinding. An observer of a deterministic machine sees
the same after a run as after those actions of the run that are its own. -/
namespace IoProcessor.Library.Noninterference
variable {σ α β : Type*} {step : σ → α → σ} {observe : σ → β} {own : α → Prop}

/-- The unwinding conditions: a foreign action is not seen, and what is seen of
an own action depends on what was seen before it. -/
structure Unwinds (step : σ → α → σ) (observe : σ → β) (own : α → Prop) : Prop where
  foreign : ∀ s a, ¬ own a → observe (step s a) = observe s
  consistent : ∀ s t a, own a → observe s = observe t → observe (step s a) = observe (step t a)

theorem Unwinds.observe_foldl [DecidablePred own] (h : Unwinds step observe own) (l : List α) {s t : σ}
    (hst : observe s = observe t) : observe (l.foldl step s) = observe ((l.filter own).foldl step t) := by
  induction l generalizing s t with
  | nil => exact hst
  | cons a l ih =>
    by_cases ha : own a
    · rw [List.filter_cons_of_pos (by simpa using ha)]
      exact ih (h.consistent s t a ha hst)
    · rw [List.filter_cons_of_neg (by simpa using ha)]
      exact ih ((h.foreign s a ha).trans hst)

end IoProcessor.Library.Noninterference
