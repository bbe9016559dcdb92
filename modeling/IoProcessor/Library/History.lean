import Mathlib.Data.List.Induction
import Mathlib.Logic.Relation

/-! Runs of a step function and properties of the event histories they leave.
Actions that are not enabled are expected to leave the state as it is. -/
namespace IoProcessor.Library.History
variable {σ α ε : Type*}

def run (step : σ → α → σ) (s : σ) (acts : List α) : σ := acts.foldl step s

@[simp] theorem run_nil (step : σ → α → σ) (s : σ) : run step s [] = s := rfl

@[simp] theorem run_cons (step : σ → α → σ) (s : σ) (a : α) (acts : List α) :
    run step s (a :: acts) = run step (step s a) acts := rfl

theorem run_append (step : σ → α → σ) (s : σ) (before after : List α) :
    run step s (before ++ after) = run step (run step s before) after := List.foldl_append

theorem run_concat (earlier later : List α) : run (fun s a => s ++ [a]) earlier later = earlier ++ later := by
  induction later generalizing earlier with
  | nil => exact (List.append_nil earlier).symm
  | cons a later ih => rw [run_cons, ih, List.append_assoc, List.singleton_append]

/-- What one step keeps, a whole run keeps. -/
theorem run_invariant {step : σ → α → σ} {Inv : σ → Prop}
    (keep : ∀ s a, Inv s → Inv (step s a)) {s : σ} (h : Inv s) (acts : List α) :
    Inv (run step s acts) := by
  induction acts generalizing s with
  | nil => exact h
  | cons a acts ih => exact ih (keep s a h)

/-- Every action of the run meets a condition in the state it is taken in. -/
def Along (step : σ → α → σ) (C : σ → α → Prop) : σ → List α → Prop
  | _, [] => True
  | s, a :: acts => C s a ∧ Along step C (step s a) acts

instance Along.decidable (step : σ → α → σ) (C : σ → α → Prop) [∀ s a, Decidable (C s a)] :
    (s : σ) → (acts : List α) → Decidable (Along step C s acts)
  | _, [] => .isTrue trivial
  | s, a :: acts =>
    have := Along.decidable step C (step s a) acts
    inferInstanceAs (Decidable (C s a ∧ Along step C (step s a) acts))

/-- The invariant rule for runs whose steps all meet a condition. -/
theorem run_invariant_along {step : σ → α → σ} {C : σ → α → Prop} {Inv : σ → Prop}
    (keep : ∀ s a, Inv s → C s a → Inv (step s a)) {s : σ} (h : Inv s) {acts : List α}
    (hc : Along step C s acts) : Inv (run step s acts) := by
  induction acts generalizing s with
  | nil => exact h
  | cons a acts ih => exact ih (keep s a h hc.1) hc.2

theorem transitions_keep {ν : Type*} {R : ν → ν → Prop} {Inv : ν → Prop} (keep : ∀ v w, R v w → Inv v → Inv w)
    {v w : ν} (hr : Relation.ReflTransGen R v w) (hv : Inv v) : Inv w := by
  induction hr with
  | refl => exact hv
  | tail _ hr ih => exact keep _ _ hr ih

/-- When each step is some transitions of a part seen through a view, an
invariant of the transitions is an invariant of the view. -/
theorem run_view_invariant {ν : Type*} {step : σ → α → σ} {C : σ → α → Prop} {view : σ → ν}
    {R : ν → ν → Prop} {Inv : ν → Prop}
    (simulates : ∀ s a, C s a → Relation.ReflTransGen R (view s) (view (step s a)))
    (keep : ∀ v w, R v w → Inv v → Inv w) {s : σ} (h : Inv (view s)) {acts : List α}
    (hc : Along step C s acts) : Inv (view (run step s acts)) := by
  let Seen (s : σ) : Prop := Inv (view s)
  have hstep (s : σ) (a : α) (hs : Seen s) (ha : C s a) : Seen (step s a) :=
    transitions_keep keep (simulates s a ha) hs
  exact run_invariant_along hstep h hc

theorem along_of_forall {step : σ → α → σ} {C : σ → α → Prop} (h : ∀ s a, C s a) (s : σ) (acts : List α) :
    Along step C s acts := by
  induction acts generalizing s with
  | nil => trivial
  | cons a acts ih => exact ⟨h s a, ih _⟩

/-- A machine that only adds to the state of another one runs with it. -/
theorem run_project {τ : Type*} {step : σ → α → σ} {wide : τ → α → τ} {proj : τ → σ}
    (commutes : ∀ w a, proj (wide w a) = step (proj w) a) (w : τ) (acts : List α) :
    proj (run wide w acts) = run step (proj w) acts := by
  induction acts generalizing w with
  | nil => rfl
  | cons a acts ih => rw [run_cons, run_cons, ih, commutes]

theorem Along.lift {τ : Type*} {step : σ → α → σ} {wide : τ → α → τ} {proj : τ → σ} {C : σ → α → Prop}
    (commutes : ∀ w a, proj (wide w a) = step (proj w) a) {w : τ} {acts : List α}
    (h : Along step C (proj w) acts) : Along wide (fun w a => C (proj w) a) w acts := by
  induction acts generalizing w with
  | nil => trivial
  | cons a acts ih => exact ⟨h.1, ih (commutes w a ▸ h.2)⟩

theorem Along.and {step : σ → α → σ} {C D : σ → α → Prop} {s : σ} {acts : List α} (h : Along step C s acts)
    (h' : Along step D s acts) : Along step (fun s a => C s a ∧ D s a) s acts := by
  induction acts generalizing s with
  | nil => trivial
  | cons a acts ih => exact ⟨⟨h.1, h'.1⟩, ih h.2 h'.2⟩

theorem along_append {step : σ → α → σ} {C : σ → α → Prop} {s : σ} {before after : List α} :
    Along step C s (before ++ after) ↔ Along step C s before ∧ Along step C (run step s before) after := by
  induction before generalizing s with
  | nil => simp [Along]
  | cons a before ih => rw [List.cons_append, Along, Along, ih, run_cons, and_assoc]

/-- An event of a history is its newest or one of the history before. -/
theorem split_concat {t pre post : List ε} {d e : ε} (h : t ++ [d] = pre ++ e :: post) :
    (d = e ∧ t = pre ∧ post = []) ∨ ∃ rest, t = pre ++ e :: rest ∧ post = rest ++ [d] := by
  obtain rfl | ⟨rest, x, rfl⟩ := post.eq_nil_or_concat
  · obtain ⟨ht, hx⟩ := List.append_inj' h rfl
    exact .inl ⟨List.singleton_inj.mp hx, ht, rfl⟩
  · have hl : t ++ [d] = (pre ++ e :: rest) ++ [x] := by simpa using h
    obtain ⟨ht, hx⟩ := List.append_inj' hl rfl
    rw [List.singleton_inj.mp hx]
    exact .inr ⟨rest, ht, by simp⟩

/-- Every event of the history stands in relation P to the events before it. -/
def AtEvery (P : List ε → ε → Prop) (t : List ε) : Prop :=
  ∀ pre e post, t = pre ++ e :: post → P pre e

@[simp] theorem atEvery_nil (P : List ε → ε → Prop) : AtEvery P [] := by
  intro pre e post h
  simp at h

theorem atEvery_concat {P : List ε → ε → Prop} {t : List ε} {e : ε} :
    AtEvery P (t ++ [e]) ↔ AtEvery P t ∧ P t e := by
  constructor
  · intro h
    refine ⟨fun pre d post hd => h pre d (post ++ [e]) (by simp [hd]), h t e [] rfl⟩
  · rintro ⟨h, he⟩ pre d post hd
    obtain ⟨rfl, rfl, -⟩ | ⟨rest, ht, -⟩ := split_concat hd
    · exact he
    · exact h pre d rest ht

theorem atEvery_append {P : List ε → ε → Prop} {t u : List ε} :
    AtEvery P (t ++ u) ↔ AtEvery P t ∧ AtEvery (fun pre e => P (t ++ pre) e) u := by
  induction u using List.reverseRecOn with
  | nil => simp
  | append_singleton u e ih => rw [← List.append_assoc, atEvery_concat, ih, atEvery_concat, and_assoc]

/-- New events that need no look at the past. -/
theorem AtEvery.append {P : List ε → ε → Prop} {t u : List ε} (h : AtEvery P t)
    (hu : ∀ e ∈ u, ∀ pre, P pre e) : AtEvery P (t ++ u) := by
  rw [atEvery_append]
  refine ⟨h, ?_⟩
  rintro pre e post rfl
  exact hu e (by simp) _

@[simp] theorem atEvery_cons {P : List ε → ε → Prop} {e : ε} {u : List ε} :
    AtEvery P (e :: u) ↔ P [] e ∧ AtEvery (fun pre d => P (e :: pre) d) u := by
  have h := atEvery_append (P := P) (t := [e]) (u := u)
  have hs := atEvery_concat (P := P) (t := []) (e := e)
  simp only [List.nil_append, atEvery_nil, true_and] at hs
  rw [← hs]
  exact h

theorem atEvery_iff_getElem {P : List ε → ε → Prop} {t : List ε} :
    AtEvery P t ↔ ∀ k : Fin t.length, P (t.take k) t[k] := by
  constructor
  · intro h k
    exact h (t.take k) t[k] (t.drop (k+1)) (by simp)
  · rintro h pre e post rfl
    have hk := h ⟨pre.length, by simp⟩
    simpa using hk

instance AtEvery.decidable (P : List ε → ε → Prop) [∀ pre e, Decidable (P pre e)] (t : List ε) :
    Decidable (AtEvery P t) :=
  decidable_of_iff _ atEvery_iff_getElem.symm

/-- The opening event has occurred and the closing one has not occurred since. -/
def Outstanding (opening closing : ε) (t : List ε) : Prop :=
  ∃ pre post, t = pre ++ opening :: post ∧ closing ∉ post

theorem not_outstanding_nil (o c : ε) : ¬ Outstanding o c [] := by
  rintro ⟨pre, post, h, -⟩
  simp at h

/-- An outstanding opening was outstanding before or is the newest event. -/
theorem Outstanding.of_concat {o c e : ε} {t : List ε} (h : Outstanding o c (t ++ [e])) :
    e = o ∨ (Outstanding o c t ∧ e ≠ c) := by
  obtain ⟨pre, post, ht, hc⟩ := h
  obtain ⟨rfl, -, -⟩ | ⟨rest, hs, rfl⟩ := split_concat ht
  · exact .inl rfl
  · simp only [List.mem_append, List.mem_singleton, not_or] at hc
    exact .inr ⟨⟨pre, rest, hs, hc.1⟩, Ne.symm hc.2⟩

end IoProcessor.Library.History
