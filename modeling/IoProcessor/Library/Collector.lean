import Mathlib.Data.List.Pairwise
import Mathlib.Order.Lattice

/-! Collecting the entries of sorted views, where an entry is dropped only if
the last one collected has its key. -/
namespace IoProcessor.Library.Collector
variable {α κ : Type} [LinearOrder κ] (key : α → κ)

def collect (seen : List α) (x : α) : List α :=
  if seen.getLast?.map key ≠ some (key x) then seen ++ [x] else seen

def scan (seen view : List α) : List α := view.foldl (collect key) seen

/-- The entries with a key that has not been seen. -/
def fresh (seen view : List α) : List α := view.filter fun y => ∀ x ∈ seen, key x ≠ key y

/-- The keys increase. -/
def Increasing (xs : List α) : Prop := xs.Pairwise fun x y => key x < key y

variable {key} {seen view : List α}

theorem collect_extends (seen : List α) (x : α) : seen <+: collect key seen x := by
  unfold collect
  split
  · exact List.prefix_append seen [x]
  · exact List.prefix_rfl

/-- Nothing that is collected is given up. -/
theorem scan_extends (seen view : List α) : seen <+: scan key seen view := by
  induction view generalizing seen with
  | nil => exact List.prefix_rfl
  | cons x view ih => exact (collect_extends seen x).trans (ih (collect key seen x))

theorem collect_last (seen : List α) (x : α) : (collect key seen x).getLast?.map key = some (key x) := by
  unfold collect
  split
  · simp
  · rename_i h
    exact not_not.mp h

/-- Behind its first entry an increasing view is collected whole. -/
theorem scan_above {k : κ} (hlast : seen.getLast?.map key = some k) (hview : Increasing key view)
    (habove : ∀ y ∈ view, k < key y) : scan key seen view = seen ++ view := by
  induction view generalizing seen k with
  | nil => rw [List.append_nil]; rfl
  | cons x view ih =>
    obtain ⟨hx, hrest⟩ := List.pairwise_cons.mp hview
    have hne : seen.getLast?.map key ≠ some (key x) := by
      rw [hlast]
      exact fun h => (habove x List.mem_cons_self).ne (Option.some.inj h)
    have hcollect : collect key seen x = seen ++ [x] := if_pos hne
    rw [scan, List.foldl_cons, hcollect]
    have hnext : (seen ++ [x]).getLast?.map key = some (key x) := by simp
    rw [← scan, ih hnext hrest hx, List.append_assoc, List.singleton_append]

theorem scan_cons {x : α} (hview : Increasing key (x :: view)) :
    scan key seen (x :: view) = collect key seen x ++ view := by
  obtain ⟨hx, hrest⟩ := List.pairwise_cons.mp hview
  rw [scan, List.foldl_cons, ← scan]
  exact scan_above (collect_last seen x) hrest hx

/-- The first view is collected whole. -/
theorem scan_nil (hview : Increasing key view) : scan key [] view = view := by
  cases view with
  | nil => rfl
  | cons x view => exact scan_cons hview

/-- The last key of an increasing list is its greatest one. -/
theorem exists_last (h : Increasing key seen) {x : α} (hx : x ∈ seen) :
    ∃ z, seen.getLast? = some z ∧ key x ≤ key z := by
  rcases hlast : seen.getLast? with _ | z
  · rw [List.getLast?_eq_none_iff.mp hlast] at hx
    exact nomatch hx
  · refine ⟨z, rfl, ?_⟩
    obtain ⟨front, rfl⟩ := List.getLast?_eq_some_iff.mp hlast
    rcases List.mem_append.mp hx with hx | hx
    · exact ((List.pairwise_append.mp h).2.2 x hx z (List.mem_singleton_self z)).le
    · rw [List.mem_singleton.mp hx]

/-- One scan of an increasing view keeps the keys increasing exactly if no key
seen before is above one in the view. -/
theorem scan_increasing_iff (hseen : Increasing key seen) (hview : Increasing key view) :
    Increasing key (scan key seen view) ↔ ∀ x ∈ seen, ∀ y ∈ view, key x ≤ key y := by
  cases view with
  | nil => simp [scan, hseen]
  | cons v view =>
    obtain ⟨hv, hrest⟩ := List.pairwise_cons.mp hview
    rw [scan_cons hview, collect]
    by_cases hlast : seen.getLast?.map key = some (key v)
    · rw [if_neg (not_not.mpr hlast)]
      have hle (x : α) (hx : x ∈ seen) : key x ≤ key v := by
        obtain ⟨z, hz, hxz⟩ := exists_last hseen hx
        rw [hz] at hlast
        exact hxz.trans_eq (Option.some.inj hlast)
      refine iff_of_true (List.pairwise_append.mpr ⟨hseen, hrest, fun x hx y hy => (hle x hx).trans_lt (hv y hy)⟩) ?_
      intro x hx y hy
      rcases List.mem_cons.mp hy with rfl | hy
      · exact hle x hx
      · exact (hle x hx).trans (hv y hy).le
    · rw [if_pos hlast, List.append_assoc, List.singleton_append, Increasing, List.pairwise_append]
      constructor
      · rintro ⟨-, -, h⟩ x hx y hy
        exact (h x hx y hy).le
      · intro h
        refine ⟨hseen, hview, fun x hx y hy => ?_⟩
        have hvy : key v ≤ key y := by
          rcases List.mem_cons.mp hy with rfl | hy
          · exact le_rfl
          · exact (hv y hy).le
        obtain ⟨z, hz, hxz⟩ := exists_last hseen hx
        have hzv : key z ≠ key v := fun he => hlast (by rw [hz, Option.map_some, he])
        exact (hxz.trans_lt (lt_of_le_of_ne (h z (List.mem_of_getLast? hz) v List.mem_cons_self) hzv)).trans_le hvy

theorem fresh_of_lt (h : ∀ x ∈ seen, ∀ y ∈ view, key x < key y) : fresh key seen view = view := by
  rw [fresh, List.filter_eq_self]
  intro y hy
  exact decide_eq_true fun x hx => (h x hx y hy).ne

/-- The entries with new keys are then added. -/
theorem scan_eq_fresh (hview : Increasing key view) (h : Increasing key (scan key seen view)) :
    scan key seen view = seen ++ fresh key seen view := by
  cases view with
  | nil => exact (List.append_nil seen).symm
  | cons v view =>
    rw [scan_cons hview, collect] at h ⊢
    by_cases hlast : seen.getLast?.map key = some (key v)
    · rw [if_neg (not_not.mpr hlast)] at h ⊢
      obtain ⟨z, hz, hzv⟩ := Option.map_eq_some_iff.mp hlast
      have hv : ¬ ∀ x ∈ seen, key x ≠ key v := fun hall => hall z (List.mem_of_getLast? hz) hzv
      have hcons : fresh key seen (v :: view) = fresh key seen view := List.filter_cons_of_neg (by simpa using hv)
      rw [hcons, fresh_of_lt (List.pairwise_append.mp h).2.2]
    · rw [if_pos hlast, List.append_assoc, List.singleton_append] at h ⊢
      rw [fresh_of_lt (List.pairwise_append.mp h).2.2]

end IoProcessor.Library.Collector
