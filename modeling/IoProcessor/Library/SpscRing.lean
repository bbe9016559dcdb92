import Mathlib.Data.List.Infix
import Mathlib.Logic.Function.Basic
import IoProcessor.Library.FreeRunning

/-! A ring with one producer and one consumer: two free-running indices and
2^k slots, seen as the entries made and the entries taken so far. -/
namespace IoProcessor.Library.SpscRing
open FreeRunning
variable {α : Type*} {w : Nat}

/-- The ring holds the entries that were made and not yet taken, in order, from
the slot of the tail up to the slot of the head. -/
structure Window (k : Nat) (start head tail : BitVec w) (slots : BitVec w → α) (made taken : List α) : Prop where
  head : head = index start made.length
  tail : tail = index start taken.length
  bounded : made.length ≤ taken.length + 2^k
  delivered : taken <+: made
  live : ∀ i, taken.length ≤ i → i < made.length → made[i]? = some (slots (slot k (index start i)))

variable {k : Nat} {start head tail : BitVec w} {slots : BitVec w → α} {made taken : List α}

theorem window_init (start : BitVec w) (slots : BitVec w → α) : Window k start start start slots [] [] := by
  constructor <;> simp [index_zero]

namespace Window

theorem ordered (h : Window k start head tail slots made taken) : taken.length ≤ made.length := h.delivered.length_le

/-- What the indices say about room, also with a copy of the tail that may be
old by now: it makes the ring look fuller than it is. -/
theorem room_of_lt (h : Window k start head tail slots made taken) (hk : k < w) {c : Nat} (hc : c ≤ taken.length)
    (hm : made.length ≤ c + 2^k) (hlt : (head - index start c).toNat < 2^k) : made.length < taken.length + 2^k := by
  have hp : 2^k < 2^w := Nat.pow_lt_pow_right (by omega) hk
  rw [h.head, index_sub (hc.trans h.ordered) (by omega)] at hlt
  omega

/-- The indices count the entries in the ring. -/
theorem sub_toNat (h : Window k start head tail slots made taken) (hk : k < w) :
    (head - tail).toNat = made.length - taken.length := by
  have hp : 2^k < 2^w := Nat.pow_lt_pow_right (by omega) hk
  have ho := h.ordered
  have hb := h.bounded
  rw [h.head, h.tail]
  exact index_sub ho (by omega)

/-- An empty ring has equal indices, and no other has. -/
theorem tail_ne_head (h : Window k start head tail slots made taken) (hk : k < w) :
    tail ≠ head ↔ taken.length < made.length := by
  have hsub := h.sub_toNat hk
  constructor
  · intro hne
    refine lt_of_le_of_ne h.ordered fun he => hne ?_
    rw [h.head, h.tail, he]
  · rintro hlt rfl
    rw [BitVec.sub_self] at hsub
    simp at hsub
    omega

/-- The slot under the head holds no entry while there is room. -/
theorem slot_free (h : Window k start head tail slots made taken) (hk : k < w)
    (hroom : made.length < taken.length + 2^k) {i : Nat} (hi : taken.length ≤ i) (hlt : i < made.length) :
    slot k (index start i) ≠ slot k head := by
  intro he
  rw [h.head] at he
  have := slot_injective hk.le hlt.le (by omega) he.symm
  omega

/-- The producer may do as it likes with that slot. -/
theorem write (h : Window k start head tail slots made taken) (hk : k < w)
    (hroom : made.length < taken.length + 2^k) {slots' : BitVec w → α}
    (hs : ∀ x, x ≠ slot k head → slots' x = slots x) : Window k start head tail slots' made taken where
  head := h.head
  tail := h.tail
  bounded := h.bounded
  delivered := h.delivered
  live i hi hlt := by
    rw [hs _ (h.slot_free hk hroom hi hlt)]
    exact h.live i hi hlt

/-- The store of the head makes its content an entry. -/
theorem produce (h : Window k start head tail slots made taken) (hroom : made.length < taken.length + 2^k) :
    Window k start (head + 1#w) tail slots (made ++ [slots (slot k head)]) taken where
  head := by rw [List.length_append, List.length_singleton, index_succ, ← h.head]
  tail := h.tail
  bounded := by
    rw [List.length_append]
    exact hroom
  delivered := h.delivered.trans (List.prefix_append _ _)
  live i hi hlt := by
    by_cases hnew : i = made.length
    · rw [hnew, List.getElem?_concat_length, ← h.head]
    · have hold : i < made.length := by
        rw [List.length_append, List.length_singleton] at hlt
        omega
      rw [List.getElem?_append_left hold]
      exact h.live i hi hold

/-- The oldest entry is under the tail. -/
theorem oldest (h : Window k start head tail slots made taken) (hlt : taken.length < made.length) :
    made[taken.length]? = some (slots (slot k tail)) := by
  rw [h.tail]
  exact h.live _ le_rfl hlt

/-- The store of the tail takes it. -/
theorem consume (h : Window k start head tail slots made taken) (hlt : taken.length < made.length) :
    Window k start head (tail + 1#w) slots made (taken ++ [slots (slot k tail)]) where
  head := h.head
  tail := by rw [List.length_append, List.length_singleton, index_succ, ← h.tail]
  bounded := by
    have := h.bounded
    rw [List.length_append, List.length_singleton]
    omega
  delivered := by
    obtain ⟨rest, hrest⟩ := h.delivered
    have hold := h.oldest hlt
    rw [← hrest, List.getElem?_append_right le_rfl, Nat.sub_self] at hold
    rw [← hrest, List.prefix_append_right_inj]
    cases rest with
    | nil => simp at hold
    | cons d rest =>
      cases hold
      exact ⟨rest, rfl⟩
  live i hi hi' := by
    refine h.live i ?_ hi'
    rw [List.length_append] at hi
    omega

end Window
end IoProcessor.Library.SpscRing
