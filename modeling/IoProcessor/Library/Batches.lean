import Mathlib.Algebra.BigOperators.Group.List.Basic
import Mathlib.Algebra.Order.Ring.Nat
import IoProcessor.Library.History

/-! Items that are gathered until the next one might not fit: what has been
gathered is then closed as a batch. -/
namespace IoProcessor.Library.Batches
open History
variable {ε : Type*}

/-- What an item takes, and what has to be free before it is put in. -/
structure Sizes (ε : Type*) where
  taken : ε → Nat
  asked : ε → Nat
  taken_pos : ∀ e, 0 < taken e
  taken_le_asked : ∀ e, taken e ≤ asked e

structure State (ε : Type*) where
  closed : List (List ε)
  gathered : List ε

def empty : State ε := ⟨[], []⟩

/-- Everything that was put in, in order. -/
def State.all (s : State ε) : List ε := s.closed.flatten ++ s.gathered

def Sizes.used (z : Sizes ε) (items : List ε) : Nat := (items.map z.taken).sum

variable (z : Sizes ε) (capacity : Nat)

def close (s : State ε) : State ε := if s.gathered.isEmpty then s else ⟨s.closed ++ [s.gathered], []⟩

def makeRoom (s : State ε) (n : Nat) : State ε := if capacity < z.used s.gathered + n then close s else s

def put (s : State ε) (e : ε) : State ε :=
  let s := makeRoom z capacity s (z.asked e)
  if z.used s.gathered + z.asked e ≤ capacity then ⟨s.closed, s.gathered ++ [e]⟩ else s

/-- An item is put in, or the batch is closed. -/
def step (s : State ε) : Option ε → State ε
  | some e => put z capacity s e
  | none => close s

/-- No batch is empty or too large. -/
structure WellFormed (s : State ε) : Prop where
  closed_ne : ∀ batch ∈ s.closed, batch ≠ []
  closed_le : ∀ batch ∈ s.closed, z.used batch ≤ capacity
  gathered_le : z.used s.gathered ≤ capacity

variable {z capacity}

@[simp] theorem used_nil : z.used [] = 0 := rfl

@[simp] theorem used_concat (items : List ε) (e : ε) : z.used (items ++ [e]) = z.used items + z.taken e := by
  simp [Sizes.used]

theorem used_pos {items : List ε} (h : items ≠ []) : 0 < z.used items := by
  obtain ⟨e, items, rfl⟩ := List.exists_cons_of_ne_nil h
  rw [Sizes.used, List.map_cons, List.sum_cons]
  exact Nat.add_pos_left (z.taken_pos e) _

theorem length_le_used (items : List ε) : items.length ≤ z.used items := by
  rw [← List.length_map z.taken]
  refine List.length_le_sum_of_one_le _ fun n hn => ?_
  obtain ⟨e, -, rfl⟩ := List.mem_map.mp hn
  exact z.taken_pos e

@[simp] theorem all_close (s : State ε) : (close s).all = s.all := by
  rw [close]
  split
  · rfl
  · simp [State.all]

@[simp] theorem gathered_close (s : State ε) : (close s).gathered = [] := by
  rw [close]
  split
  · rename_i h
    exact List.isEmpty_iff.mp h
  · rfl

@[simp] theorem all_makeRoom (s : State ε) (n : Nat) : (makeRoom z capacity s n).all = s.all := by
  rw [makeRoom]
  split
  · exact all_close s
  · rfl

theorem WellFormed.empty : WellFormed z capacity (empty : State ε) :=
  ⟨by simp [Batches.empty], by simp [Batches.empty], Nat.zero_le _⟩

theorem WellFormed.close {s : State ε} (h : WellFormed z capacity s) : WellFormed z capacity (close s) := by
  rw [Batches.close]
  split
  · exact h
  · rename_i hne
    have hlast : s.gathered ≠ [] := fun he => hne (List.isEmpty_iff.mpr he)
    refine ⟨?_, ?_, Nat.zero_le _⟩
    · simpa [or_imp, forall_and] using ⟨h.closed_ne, hlast⟩
    · simpa [or_imp, forall_and] using ⟨h.closed_le, h.gathered_le⟩

theorem WellFormed.makeRoom {s : State ε} (h : WellFormed z capacity s) (n : Nat) :
    WellFormed z capacity (makeRoom z capacity s n) := by
  rw [Batches.makeRoom]
  split
  · exact h.close
  · exact h

/-- Room that cannot be made is room that an empty batch does not have. -/
theorem room_iff {s : State ε} (n : Nat) :
    z.used (makeRoom z capacity s n).gathered + n ≤ capacity ↔ n ≤ capacity := by
  rw [makeRoom]
  split
  · rw [gathered_close, used_nil, Nat.zero_add]
  · omega

/-- An item is dropped exactly when an empty batch would be too small for it. -/
theorem all_put (s : State ε) (e : ε) :
    (put z capacity s e).all = s.all ++ [e].filter fun e => z.asked e ≤ capacity := by
  simp only [put, room_iff]
  rw [← (all_makeRoom s (z.asked e) : (makeRoom z capacity s (z.asked e)).all = s.all)]
  split
  · rename_i h
    simp [h, State.all]
  · rename_i h
    simp [h]

theorem WellFormed.put {s : State ε} (h : WellFormed z capacity s) (e : ε) :
    WellFormed z capacity (put z capacity s e) := by
  have hroom := h.makeRoom (z.asked e)
  simp only [Batches.put]
  split
  · rename_i hfits
    have hle := z.taken_le_asked e
    exact ⟨hroom.closed_ne, hroom.closed_le, by rw [used_concat]; omega⟩
  · exact hroom

theorem WellFormed.step {s : State ε} (h : WellFormed z capacity s) (action : Option ε) :
    WellFormed z capacity (step z capacity s action) := by
  cases action with
  | none => exact h.close
  | some e => exact h.put e

theorem WellFormed.run {s : State ε} (h : WellFormed z capacity s) (actions : List (Option ε)) :
    WellFormed z capacity (History.run (Batches.step z capacity) s actions) :=
  run_invariant (fun _ action h => h.step action) h actions

theorem all_step (s : State ε) (action : Option ε) :
    (step z capacity s action).all = s.all ++ action.toList.filter fun e => z.asked e ≤ capacity := by
  cases action with
  | none => simp [step]
  | some e => exact all_put s e

/-- Nothing is lost, doubled or reordered by the batches. -/
theorem all_run (s : State ε) (actions : List (Option ε)) :
    (run (step z capacity) s actions).all =
      s.all ++ (actions.flatMap Option.toList).filter fun e => z.asked e ≤ capacity := by
  induction actions generalizing s with
  | nil => simp
  | cons action actions ih =>
    rw [run_cons, ih, all_step, List.flatMap_cons, List.filter_append, List.append_assoc]

end IoProcessor.Library.Batches
