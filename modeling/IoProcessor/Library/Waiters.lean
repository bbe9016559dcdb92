import IoProcessor.Library.History

/-! Waiters: who was suspended and has not been posted since, and the claim that
all of them are held somewhere. -/
namespace IoProcessor.Library.Waiters
open History
variable {α : Type*}

inductive Wait (α : Type*) where
  | suspended (c : α)
  | posted (c : α)

def Waits (t : List (Wait α)) (c : α) : Prop := Outstanding (.suspended c) (.posted c) t

/-- Nobody who waits is forgotten. -/
def AllHeld (held : α → Prop) (t : List (Wait α)) : Prop := ∀ c, Waits t c → held c

variable {held held' : α → Prop} {t : List (Wait α)} {c : α}

theorem allHeld_nil (held : α → Prop) : AllHeld held [] :=
  fun _ h => absurd h (not_outstanding_nil _ _)

theorem AllHeld.mono (h : AllHeld held t) (hk : ∀ d, held d → held' d) : AllHeld held' t :=
  fun d hd => hk d (h d hd)

theorem AllHeld.suspend (h : AllHeld held t) (hk : ∀ d, held d → held' d) (hc : held' c) :
    AllHeld held' (t ++ [.suspended c]) := by
  intro d hd
  rcases Outstanding.of_concat hd with he | ⟨hd, -⟩
  · cases he
    exact hc
  · exact hk d (h d hd)

theorem AllHeld.post (h : AllHeld held t) (hk : ∀ d, held d → d = c ∨ held' d) :
    AllHeld held' (t ++ [.posted c]) := by
  intro d hd
  rcases Outstanding.of_concat hd with he | ⟨hd, hne⟩
  · cases he
  · refine (hk d (h d hd)).resolve_left ?_
    rintro rfl
    exact hne rfl

/-- The post of a handle that may be null. -/
def postedWait (handle : Option α) : List (Wait α) := (handle.map Wait.posted).toList

theorem AllHeld.post_option (h : AllHeld held t) {handle : Option α}
    (hk : ∀ d, held d → handle = some d ∨ held' d) : AllHeld held' (t ++ postedWait handle) := by
  cases handle with
  | none =>
    simp only [postedWait, Option.map_none, Option.toList_none, List.append_nil]
    exact h.mono fun d hd => (hk d hd).resolve_left (by simp)
  | some c => exact h.post fun d hd => (hk d hd).imp_left fun he => (Option.some.inj he).symm

end IoProcessor.Library.Waiters
