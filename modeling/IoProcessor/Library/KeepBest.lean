import Mathlib.Order.Lattice

/-! A search that keeps the best candidate seen so far, the first among equals. -/
namespace IoProcessor.Library.KeepBest
variable {α β : Type*} [LinearOrder β] (score : α → β)

def keepBest (best x : α) : α := if score x < score best then x else best

theorem score_keepBest_le (best x : α) :
    score (keepBest score best x) ≤ score best ∧ score (keepBest score best x) ≤ score x := by
  unfold keepBest
  split
  · rename_i h
    exact ⟨h.le, le_rfl⟩
  · rename_i h
    exact ⟨le_rfl, not_lt.mp h⟩

/-- Nothing that was looked at is better than what is kept. -/
theorem score_foldl_le (best : α) (xs : List α) :
    score (xs.foldl (keepBest score) best) ≤ score best ∧ ∀ x ∈ xs, score (xs.foldl (keepBest score) best) ≤ score x := by
  induction xs generalizing best with
  | nil => simp
  | cons x xs ih =>
    obtain ⟨hstart, hrest⟩ := ih (keepBest score best x)
    obtain ⟨hbest, hx⟩ := score_keepBest_le score best x
    refine ⟨hstart.trans hbest, ?_⟩
    intro y hy
    rcases List.mem_cons.mp hy with rfl | hy
    · exact hstart.trans hx
    · exact hrest y hy

theorem foldl_mem (best : α) (xs : List α) :
    xs.foldl (keepBest score) best = best ∨ xs.foldl (keepBest score) best ∈ xs := by
  induction xs generalizing best with
  | nil => exact .inl rfl
  | cons x xs ih =>
    rw [List.foldl_cons, List.mem_cons]
    have hkept : keepBest score best x = best ∨ keepBest score best x = x := by
      unfold keepBest
      split
      · exact .inr rfl
      · exact .inl rfl
    rcases ih (keepBest score best x) with h | h
    · rw [h]
      exact hkept.imp_right .inl
    · exact .inr (.inr h)

end IoProcessor.Library.KeepBest
