import Mathlib.Data.Set.Card

/-! A table of slots as a map: a key claims the first slot that is free or its
own, and a search takes the first slot with the key. -/
namespace IoProcessor.Library
variable {κ ν : Type*}

/-- Slots that hold a key and its value, or nothing. -/
abbrev SlotTable (κ ν : Type*) := List (Option (κ × ν))

namespace SlotTable

/-- The keys of the slots that are taken, in slot order. -/
def keys (t : SlotTable κ ν) : List κ := t.filterMap (Option.map Prod.fst)

@[simp] theorem keys_nil : keys ([] : SlotTable κ ν) = [] := rfl

@[simp] theorem keys_none_cons (t : SlotTable κ ν) : keys (none :: t) = keys t := rfl

@[simp] theorem keys_some_cons (e : κ × ν) (t : SlotTable κ ν) : keys (some e :: t) = e.1 :: keys t := rfl

theorem length_keys_le (t : SlotTable κ ν) : (keys t).length ≤ t.length := List.length_filterMap_le _ _

theorem length_keys_iff (t : SlotTable κ ν) : (keys t).length = t.length ↔ none ∉ t := by
  induction t with
  | nil => simp
  | cons slot t ih =>
    have hle := length_keys_le t
    cases slot with
    | none =>
      simp only [keys_none_cons, List.length_cons, List.mem_cons, true_or, not_true, iff_false]
      omega
    | some e => simpa using ih

variable [DecidableEq κ]

def claim (k : κ) (v : ν) : SlotTable κ ν → Option (SlotTable κ ν)
  | [] => none
  | none :: t => some (some (k, v) :: t)
  | some e :: t => if e.1 = k then some (some (k, v) :: t) else (claim k v t).map (some e :: ·)

def clear (k : κ) (t : SlotTable κ ν) : SlotTable κ ν := t.map (Option.filter fun e => e.1 ≠ k)

def lookup (k : κ) : SlotTable κ ν → Option ν
  | [] => none
  | none :: t => lookup k t
  | some e :: t => if e.1 = k then some e.2 else lookup k t

/-- The key has a slot, and a slot before it is free. -/
def HoleBefore (k : κ) : SlotTable κ ν → Prop
  | [] => False
  | none :: t => k ∈ keys t
  | some e :: t => e.1 ≠ k ∧ HoleBefore k t

instance HoleBefore.decidable (k : κ) : (t : SlotTable κ ν) → Decidable (HoleBefore k t)
  | [] => .isFalse id
  | none :: t => inferInstanceAs (Decidable (k ∈ keys t))
  | some e :: t =>
    have := HoleBefore.decidable k t
    inferInstanceAs (Decidable (e.1 ≠ k ∧ HoleBefore k t))

variable {k : κ} {v : ν} {t t' : SlotTable κ ν}

/-- What a claim can do with the first slot. -/
theorem claim_cons_some {slot : Option (κ × ν)} (h : claim k v (slot :: t) = some t') :
    ((slot = none ∨ ∃ w, slot = some (k, w)) ∧ t' = some (k, v) :: t) ∨
      ∃ e u, slot = some e ∧ e.1 ≠ k ∧ claim k v t = some u ∧ t' = some e :: u := by
  cases slot with
  | none => exact .inl ⟨.inl rfl, (Option.some.inj h).symm⟩
  | some e =>
    rw [claim] at h
    by_cases he : e.1 = k
    · rw [if_pos he] at h
      exact .inl ⟨.inr ⟨e.2, by rw [← he]⟩, (Option.some.inj h).symm⟩
    · rw [if_neg he] at h
      obtain ⟨u, hu, ht⟩ := Option.map_eq_some_iff.mp h
      exact .inr ⟨e, u, rfl, he, hu, ht.symm⟩

/-- A claim is refused by a table that is full of other keys. -/
theorem claim_eq_none_iff : claim k v t = none ↔ k ∉ keys t ∧ none ∉ t := by
  induction t with
  | nil => simp [claim]
  | cons slot t ih =>
    cases slot with
    | none => simp [claim]
    | some e =>
      by_cases he : e.1 = k
      · simp [claim, he]
      · simp [claim, he, ih, Ne.symm he]

theorem length_claim (h : claim k v t = some t') : t'.length = t.length := by
  induction t generalizing t' with
  | nil => cases h
  | cons slot t ih =>
    obtain ⟨-, rfl⟩ | ⟨e, u, -, -, hu, rfl⟩ := claim_cons_some h
    · rfl
    · rw [List.length_cons, List.length_cons, ih hu]

theorem mem_keys_claim (h : claim k v t = some t') {j : κ} (hj : j ∈ keys t') : j = k ∨ j ∈ keys t := by
  induction t generalizing t' with
  | nil => cases h
  | cons slot t ih =>
    obtain ⟨hs | ⟨w, hs⟩, rfl⟩ | ⟨e, u, rfl, -, hu, rfl⟩ := claim_cons_some h
    · subst hs
      exact List.mem_cons.mp hj
    · subst hs
      exact .inr hj
    · rw [keys_some_cons, List.mem_cons] at hj ⊢
      rcases hj with hj | hj
      · exact .inr (.inl hj)
      · exact (ih hu hj).imp_right .inr

/-- A claim keeps the keys distinct exactly when it passes no hole on its way to
the slot that the key has. -/
theorem nodup_keys_claim (hn : (keys t).Nodup) (h : claim k v t = some t') :
    (keys t').Nodup ↔ ¬ HoleBefore k t := by
  induction t generalizing t' with
  | nil => cases h
  | cons slot t ih =>
    obtain ⟨hs | ⟨w, hs⟩, rfl⟩ | ⟨e, u, rfl, he, hu, rfl⟩ := claim_cons_some h
    · subst hs
      rw [keys_some_cons, List.nodup_cons, HoleBefore]
      exact and_iff_left hn
    · subst hs
      simp only [HoleBefore, ne_eq, not_true, false_and, not_false_iff, iff_true]
      exact hn
    · rw [keys_some_cons, List.nodup_cons] at hn ⊢
      have hfresh : e.1 ∉ keys u := fun hm => (mem_keys_claim hu hm).elim he hn.1
      rw [and_iff_right hfresh, ih hn.2 hu, HoleBefore, and_iff_right he]

theorem lookup_claim (h : claim k v t = some t') (j : κ) :
    lookup j t' = Function.update (lookup · t) k (some v) j := by
  induction t generalizing t' with
  | nil => cases h
  | cons slot t ih =>
    obtain ⟨hs, rfl⟩ | ⟨e, u, rfl, he, hu, rfl⟩ := claim_cons_some h
    · by_cases hj : j = k
      · rw [hj, Function.update_self, lookup, if_pos rfl]
      · rw [Function.update_of_ne hj, lookup, if_neg (Ne.symm hj)]
        rcases hs with rfl | ⟨w, rfl⟩
        · rfl
        · rw [lookup, if_neg (Ne.symm hj)]
    · by_cases hj : j = k
      · have hk := ih hu
        rw [hj, Function.update_self] at hk ⊢
        rw [lookup, if_neg he, hk]
      · have hk := ih hu
        rw [Function.update_of_ne hj] at hk ⊢
        rw [lookup, lookup, hk]

theorem clear_some_cons (k : κ) (e : κ × ν) (t : SlotTable κ ν) :
    clear k (some e :: t) = (if e.1 = k then none else some e) :: clear k t := by
  by_cases he : e.1 = k <;> simp [clear, Option.filter, he]

theorem keys_clear (k : κ) (t : SlotTable κ ν) : keys (clear k t) = (keys t).filter (· ≠ k) := by
  induction t with
  | nil => rfl
  | cons slot t ih =>
    cases slot with
    | none => exact ih
    | some e =>
      rw [clear_some_cons]
      by_cases he : e.1 = k
      · simpa [he] using ih
      · simpa [he] using ih

theorem lookup_clear (k : κ) (t : SlotTable κ ν) (j : κ) :
    lookup j (clear k t) = Function.update (lookup · t) k none j := by
  induction t with
  | nil => by_cases hj : j = k <;> simp [clear, lookup, hj]
  | cons slot t ih =>
    cases slot with
    | none => exact ih
    | some e =>
      rw [clear_some_cons]
      by_cases hj : j = k
      · subst hj
        rw [Function.update_self] at ih ⊢
        by_cases he : e.1 = j
        · simpa [lookup, he] using ih
        · simpa [lookup, he] using ih
      · rw [Function.update_of_ne hj] at ih ⊢
        by_cases he : e.1 = k
        · have hej : e.1 ≠ j := by rw [he]; exact Ne.symm hj
          rw [if_pos he, lookup, ih, lookup, if_neg hej]
        · rw [if_neg he, lookup, ih, lookup]

theorem lookup_ne_none_iff : lookup k t ≠ none ↔ k ∈ keys t := by
  induction t with
  | nil => simp [lookup]
  | cons slot t ih =>
    cases slot with
    | none => exact ih
    | some e =>
      by_cases he : e.1 = k
      · simp [lookup, he]
      · simpa [lookup, he, Ne.symm he] using ih

/-- With distinct keys a table of n slots takes what a map of capacity n does. -/
theorem claim_accepts_iff (hn : (keys t).Nodup) :
    (claim k v t).isSome = true ↔ lookup k t ≠ none ∨ {j | lookup j t ≠ none}.ncard < t.length := by
  have hset : {j | lookup j t ≠ none} = ↑(keys t).toFinset := by
    ext j
    simp [← lookup_ne_none_iff]
  have hcard : {j | lookup j t ≠ none}.ncard = (keys t).length := by
    rw [hset, Set.ncard_coe_finset, List.toFinset_card_of_nodup hn]
  rw [Option.isSome_iff_ne_none, Ne, claim_eq_none_iff, lookup_ne_none_iff, hcard, not_and_or, not_not,
    ← length_keys_iff]
  exact or_congr_right (length_keys_le t).lt_iff_ne.symm

end SlotTable
end IoProcessor.Library
