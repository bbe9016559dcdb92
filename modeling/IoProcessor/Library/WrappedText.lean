import Mathlib.Data.List.Basic
import Mathlib.Data.Nat.ModEq
import Mathlib.Tactic.Common

/-! Text written upwards into cells and from the first cell again when they are
full, the test for full cells being made before a character and not after it. -/
namespace IoProcessor.Library
variable {α : Type*}

/-- The first `next` of `room` cells hold the newest characters of the output,
in order. -/
structure WrappedText (room : Nat) (cells : Nat → α) (next : Nat) (out : List α) : Prop where
  fits : next ≤ room
  le_length : next ≤ out.length
  lap : out.length % room = next % room
  begun : out ≠ [] → next ≠ 0
  newest : (List.range next).map cells = out.drop (out.length - next)

namespace WrappedText
variable {room next : Nat} {cells cells' : Nat → α} {out : List α} {c : α}

theorem empty (room : Nat) (cells : Nat → α) : WrappedText room cells 0 [] :=
  ⟨Nat.zero_le _, Nat.zero_le _, rfl, fun h => absurd rfl h, rfl⟩

/-- Cells from the next one on do not matter. -/
theorem congr (h : WrappedText room cells next out) (hc : ∀ k < next, cells' k = cells k) :
    WrappedText room cells' next out := by
  refine { h with newest := ?_ }
  rw [← h.newest]
  apply List.map_congr_left
  intro k hk
  exact hc k (List.mem_range.mp hk)

/-- The next character goes to the next cell. -/
theorem append (h : WrappedText room cells next out) (hroom : next < room) (hc : cells' next = c)
    (hk : ∀ k < next, cells' k = cells k) : WrappedText room cells' (next + 1) (out ++ [c]) := by
  have hle := h.le_length
  refine ⟨hroom, ?_, ?_, fun _ => Nat.succ_ne_zero next, ?_⟩
  · rw [List.length_append, List.length_singleton]
    omega
  · rw [List.length_append, List.length_singleton, Nat.add_mod, h.lap, ← Nat.add_mod]
  · rw [List.range_succ, List.map_append, (h.congr hk).newest, List.map_singleton, hc, List.length_append,
      List.length_singleton, Nat.add_sub_add_right, List.drop_append_of_le_length (by omega)]

/-- With all cells full the next character goes to the first one. -/
theorem wrap (h : WrappedText room cells room out) (hroom : 0 < room) (hc : cells' 0 = c) :
    WrappedText room cells' 1 (out ++ [c]) := by
  refine ⟨hroom, by simp, ?_, fun _ => Nat.one_ne_zero, ?_⟩
  · rw [List.length_append, List.length_singleton, Nat.add_mod, h.lap, ← Nat.add_mod, Nat.add_mod_left]
  · simp [hc]

theorem next_eq (h : WrappedText room cells next out) (hout : out ≠ []) :
    next = (out.length - 1) % room + 1 := by
  obtain ⟨k, rfl⟩ := Nat.exists_eq_succ_of_ne_zero (h.begun hout)
  obtain ⟨n, hn⟩ := Nat.exists_eq_succ_of_ne_zero (mt List.length_eq_zero_iff.mp hout)
  have hlap := h.lap
  rw [hn] at hlap
  have hk : n ≡ k [MOD room] := Nat.ModEq.add_right_cancel' 1 hlap
  rw [hn, Nat.succ_sub_one, hk, Nat.mod_eq_of_lt h.fits]

/-- A reader that stops at a mark in the next cell finds the newest characters. -/
theorem takeWhile_eq (h : WrappedText room cells next out) {p : α → Bool} (hp : ∀ x ∈ out, p x = true)
    (hmark : p (cells next) = false) {size : Nat} (hs : next < size) :
    ((List.range size).map cells).takeWhile p = out.drop (out.length - next) := by
  obtain ⟨rest, rfl⟩ := Nat.exists_eq_add_of_lt hs
  have hnewest : ∀ x ∈ (List.range next).map cells, p x = true := by
    intro x hx
    rw [h.newest] at hx
    exact hp x (List.mem_of_mem_drop hx)
  rw [Nat.add_assoc, List.range_add, List.map_append, List.takeWhile_append_of_pos hnewest, h.newest,
    List.range_succ_eq_map, List.map_cons, List.map_cons, Nat.add_zero,
    List.takeWhile_cons_of_neg (by simp [hmark]), List.append_nil]

/-- A text that fits is written in place or falls over the end once. -/
theorem next_append {next' : Nat} {text : List α} (h : WrappedText room cells next out)
    (h' : WrappedText room cells' next' (out ++ text)) (ht : text ≠ []) (hl : text.length ≤ room) :
    next' = if next + text.length ≤ room then next + text.length else next + text.length - room := by
  have hpos := List.length_pos_iff.mpr ht
  have hfits := h.fits
  have hlap : next + (text.length - 1) ≡ out.length + (text.length - 1) [MOD room] :=
    Nat.ModEq.add_right _ h.lap.symm
  have hnext := h'.next_eq (List.append_ne_nil_of_right_ne_nil out ht)
  rw [List.length_append, Nat.add_sub_assoc hpos, ← hlap] at hnext
  split
  · rw [hnext, Nat.mod_eq_of_lt (by omega)]
    omega
  · rw [hnext, Nat.mod_eq_sub_mod (by omega), Nat.mod_eq_of_lt (by omega)]
    omega

/-- The reader finds the last text of the output whole when it did not fall over
the end. -/
theorem infix_newest_iff {text : List α} (h : WrappedText room cells next (out ++ text)) :
    text <:+: (out ++ text).drop ((out ++ text).length - next) ↔ text.length ≤ next := by
  have hle := h.le_length
  constructor
  · intro hi
    have hlen := hi.length_le
    rw [List.length_drop] at hlen
    omega
  · intro hn
    rw [List.length_append, List.drop_append_of_le_length (by omega)]
    exact (List.suffix_append _ text).isInfix

end WrappedText
end IoProcessor.Library
