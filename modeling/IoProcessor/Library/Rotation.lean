import Mathlib.Data.List.Rotate

/-! A queue from which one entry is served by rotation: entries are taken from
the front until one is asked for, and those before it go to the back. -/
namespace IoProcessor.Library.Rotation
variable {α : Type*} {p : α → Bool}

/-- At most n entries are looked at. -/
def serve (p : α → Bool) : Nat → List α → Option α × List α
  | 0, q => (none, q)
  | _+1, [] => (none, [])
  | n+1, x :: q => if p x then (some x, q) else serve p n (q ++ [x])

theorem serve_found {x : α} {pre post : List α} {n : Nat} (hpre : ∀ y ∈ pre, p y = false) (hx : p x = true)
    (hn : pre.length < n) : serve p n (pre ++ x :: post) = (some x, post ++ pre) := by
  induction pre generalizing n post with
  | nil =>
    obtain ⟨n, rfl⟩ := Nat.exists_eq_succ_of_ne_zero (Nat.ne_of_gt hn)
    simp [serve, hx]
  | cons y pre ih =>
    obtain ⟨n, rfl⟩ := Nat.exists_eq_succ_of_ne_zero (Nat.ne_of_gt (Nat.zero_lt_of_lt hn))
    have hy : p y = false := hpre y (by simp)
    have hrest : serve p n (pre ++ x :: (post ++ [y])) = (some x, (post ++ [y]) ++ pre) :=
      ih (fun z hz => hpre z (by simp [hz])) (by simpa using hn)
    simpa [serve, hy] using hrest

theorem serve_missing {q : List α} (hq : ∀ y ∈ q, p y = false) (n : Nat) : serve p n q = (none, q.rotate n) := by
  induction n generalizing q with
  | zero => simp [serve]
  | succ n ih =>
    cases q with
    | nil => simp [serve]
    | cons x q =>
      have hx : p x = false := hq x (by simp)
      rw [List.rotate_cons_succ, ← ih]
      · simp [serve, hx]
      · intro y hy
        exact hq y (by simpa [or_comm] using hy)

/-- A whole turn: nothing is asked for and the queue is as it was, or its first
such entry is served and the part before it has moved behind the part after. -/
theorem serve_cases (p : α → Bool) (q : List α) :
    ((∀ y ∈ q, p y = false) ∧ serve p q.length q = (none, q)) ∨
    ∃ pre x post, q = pre ++ x :: post ∧ (∀ y ∈ pre, p y = false) ∧ p x = true ∧
      serve p q.length q = (some x, post ++ pre) := by
  cases hf : q.find? p with
  | none =>
    have hq : ∀ y ∈ q, p y = false := by simpa using hf
    exact .inl ⟨hq, by rw [serve_missing hq, List.rotate_length]⟩
  | some x =>
    obtain ⟨hx, pre, post, rfl, hpre⟩ := List.find?_eq_some_iff_append.mp hf
    have hpre : ∀ y ∈ pre, p y = false := by simpa using hpre
    exact .inr ⟨pre, x, post, rfl, hpre, hx, serve_found hpre hx (by simp)⟩

/-- The entries of one kind keep their order when no other kind is on both
sides of the entry that is served. -/
theorem filter_rotated {κ : Type*} [DecidableEq κ] {key : α → κ} {pre post : List α} {x : α}
    (hpre : ∀ y ∈ pre, key y ≠ key x) (apart : ∀ y ∈ pre, ∀ z ∈ post, key y ≠ key z) (k : κ) :
    (pre ++ x :: post).filter (key · = k) = [x].filter (key · = k) ++ (post ++ pre).filter (key · = k) := by
  have hnil {l : List α} (hl : ∀ y ∈ l, key y ≠ k) : l.filter (key · = k) = [] := by
    simpa [List.filter_eq_nil_iff] using hl
  by_cases hk : key x = k
  · rw [List.filter_append, List.filter_append, hnil fun y hy => hk ▸ hpre y hy]
    simp [hk]
  · by_cases hy : ∃ y ∈ pre, key y = k
    · obtain ⟨y, hy, rfl⟩ := hy
      have hpost := hnil fun z hz => (apart y hy z hz).symm
      simp [hk, hpost]
    · have hpre := hnil fun y hm he => hy ⟨y, hm, he⟩
      simp [hk, hpre]

end IoProcessor.Library.Rotation
