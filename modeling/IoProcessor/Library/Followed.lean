import Mathlib.Data.List.Basic

/-! Logs in which everything of one kind is followed by something of another. -/
namespace IoProcessor.Library
variable {α : Type} {P Q : α → Prop}

/-- Behind every `P` there is a `Q`. -/
def Followed (P Q : α → Prop) : List α → Prop
  | [] => True
  | a :: log => (P a → ∃ b ∈ log, Q b) ∧ Followed P Q log

/-- A `Q` in the second part is behind everything in the first. -/
theorem followed_append {first second : List α} :
    Followed P Q (first ++ second) ↔ Followed P Q second ∧ ((∃ b ∈ second, Q b) ∨ Followed P Q first) := by
  induction first with
  | nil => simp [Followed]
  | cons a first ih =>
    rw [List.cons_append, Followed, ih, Followed]
    constructor
    · rintro ⟨ha, hsecond, hb | hfirst⟩
      · exact ⟨hsecond, .inl hb⟩
      · by_cases hb : ∃ b ∈ second, Q b
        · exact ⟨hsecond, .inl hb⟩
        · refine ⟨hsecond, .inr ⟨fun h => ?_, hfirst⟩⟩
          obtain ⟨b, hmem, hq⟩ := ha h
          rcases List.mem_append.mp hmem with hmem | hmem
          · exact ⟨b, hmem, hq⟩
          · exact absurd ⟨b, hmem, hq⟩ hb
    · rintro ⟨hsecond, ⟨b, hmem, hq⟩ | ⟨ha, hfirst⟩⟩
      · exact ⟨fun _ => ⟨b, List.mem_append_right first hmem, hq⟩, hsecond, .inl ⟨b, hmem, hq⟩⟩
      · refine ⟨fun h => ?_, hsecond, .inr hfirst⟩
        obtain ⟨b, hmem, hq⟩ := ha h
        exact ⟨b, List.mem_append_left second hmem, hq⟩

end IoProcessor.Library
