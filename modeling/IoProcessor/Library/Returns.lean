import Mathlib.Logic.Basic

/-! Computations that raise exceptions: under which condition they return, what
they return then, and what they raise otherwise. -/
namespace IoProcessor.Library
variable {ε α β : Type}

/-- It returns `v` under the condition, and raises one of some exceptions
otherwise. -/
def Returns (raised : ε → Prop) (C : Prop) (v : α) (x : Except ε α) : Prop :=
  (C ∧ x = .ok v) ∨ (¬ C ∧ ∃ e, raised e ∧ x = .error e)

namespace Returns
variable {raised : ε → Prop} {C D : Prop} {v : α} {x : Except ε α}

theorem pure (v : α) : Returns raised True v (.ok v) := .inl ⟨trivial, rfl⟩

theorem congr (h : C ↔ D) (hx : Returns raised C v x) : Returns raised D v x := by
  rwa [Returns, ← h]

theorem ok_iff (hx : Returns raised C v x) : (∃ w, x = .ok w) ↔ C := by
  rcases hx with ⟨hc, rfl⟩ | ⟨hc, e, -, rfl⟩
  · simp [hc]
  · simp [hc]

theorem of_ite {p : Prop} [Decidable p] {e : ε} (he : raised e) :
    Returns raised p v (if p then .ok v else .error e) := by
  by_cases hp : p
  · exact .inl ⟨hp, if_pos hp⟩
  · exact .inr ⟨hp, e, he, if_neg hp⟩

/-- What comes behind a computation may rely on its condition. -/
theorem bind {w : β} {f : α → Except ε β} (hx : Returns raised C v x) (hf : C → Returns raised D w (f v)) :
    Returns raised (C ∧ D) w (x >>= f) := by
  rcases hx with ⟨hc, rfl⟩ | ⟨hc, e, he, rfl⟩
  · rcases hf hc with ⟨hd, h⟩ | ⟨hd, e, he, h⟩
    · exact .inl ⟨⟨hc, hd⟩, h⟩
    · exact .inr ⟨fun h => hd h.2, e, he, h⟩
  · exact .inr ⟨fun h => hc h.1, e, he, rfl⟩

theorem map (f : α → β) (hx : Returns raised C v x) : Returns raised C (f v) (x >>= fun a => .ok (f a)) := by
  rcases hx with ⟨hc, rfl⟩ | ⟨hc, e, he, rfl⟩
  · exact .inl ⟨hc, rfl⟩
  · exact .inr ⟨hc, e, he, rfl⟩

/-- One computation for each element, the first exception ending them. -/
theorem mapM {P : α → Prop} {g : α → β} {f : α → Except ε β} {xs : List α}
    (h : ∀ a ∈ xs, Returns raised (P a) (g a) (f a)) : Returns raised (∀ a ∈ xs, P a) (xs.map g) (xs.mapM f) := by
  induction xs with
  | nil => exact .inl ⟨by simp, rfl⟩
  | cons a xs ih =>
    have hrest := ih fun b hb => h b (List.mem_cons_of_mem a hb)
    have hboth : Returns raised (P a ∧ ∀ b ∈ xs, P b) (g a :: xs.map g)
        (f a >>= fun b => xs.mapM f >>= fun bs => .ok (b :: bs)) :=
      (h a List.mem_cons_self).bind fun _ => hrest.map (g a :: ·)
    rw [List.mapM_cons]
    exact hboth.congr List.forall_mem_cons.symm

/-- A loop over a list with a state. -/
theorem foldlM {P : α → Prop} {g : β → α → β} {f : β → α → Except ε β} {xs : List α}
    (h : ∀ b, ∀ a ∈ xs, Returns raised (P a) (g b a) (f b a)) (b : β) :
    Returns raised (∀ a ∈ xs, P a) (xs.foldl g b) (xs.foldlM f b) := by
  induction xs generalizing b with
  | nil => exact .inl ⟨by simp, rfl⟩
  | cons a xs ih =>
    have hrest := ih (fun b a ha => h b a (List.mem_cons_of_mem _ ha)) (g b a)
    rw [List.foldlM_cons]
    exact ((h b a List.mem_cons_self).bind fun _ => hrest).congr List.forall_mem_cons.symm

end Returns
end IoProcessor.Library
