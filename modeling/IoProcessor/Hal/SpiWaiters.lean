import IoProcessor.Hal.SpiDma
import IoProcessor.Library.Waiters

/-! What the SPI driver keeps in every run, with interrupts at any time and
awaits for any base: its flags tell whether a request is active, and whoever
waits is queued or active. -/
namespace IoProcessor.Hal.SpiDma
open Library MemoryMap History Waiters Relation

def waitsOf (i : Instance) (t : List Event) : List (Wait Coro) :=
  t.filterMap fun
    | .suspended base h => if instanceFor base = i then some (.suspended h) else none
    | .posted base _ h => if instanceFor base = i then some (.posted h) else none
    | _ => none

/-- One set of static members, and who has waited for it. -/
structure Slot where
  queue : List TransferRequest
  active : TransferRequest
  busy : Bool
  waits : List (Wait Coro)

def slotOf (s : State) (i : Instance) : Slot :=
  ⟨(s.pending i).toList, s.active i, s.busy i, waitsOf i s.trace⟩

/-- Everything that can happen to one set of members, whatever the interrupts;
a push may be rejected only where that is admitted. -/
inductive SlotStep (rejects : Prop) : Slot → Slot → Prop where
  | rejected {v : Slot} (ok : rejects) (c : Coro) :
      SlotStep rejects v { v with waits := v.waits ++ [.suspended c] }
  | accepted {v : Slot} {req : TransferRequest} {c : Coro} (hc : req.handle = some c) :
      SlotStep rejects v { v with queue := v.queue ++ [req], waits := v.waits ++ [.suspended c] }
  | started {v : Slot} {req : TransferRequest} {rest : List TransferRequest} (idle : v.busy = false)
      (hq : v.queue = req :: rest) :
      SlotStep rejects v { v with queue := rest, active := req, busy := true }
  | servedLast {v : Slot} (hq : v.queue = []) :
      SlotStep rejects v
        { v with active := default, busy := false, waits := v.waits ++ postedWait v.active.handle }
  | servedNext {v : Slot} {req : TransferRequest} {rest : List TransferRequest} (hq : v.queue = req :: rest) :
      SlotStep rejects v ⟨rest, req, true, v.waits ++ postedWait v.active.handle⟩

variable (s : State) (base : Word) (i : Instance)

private theorem slotOf_launch (req : TransferRequest) :
    slotOf (launch s base req) i =
      if instanceFor base = i then { slotOf s i with active := req, busy := true } else slotOf s i := by
  split
  · rename_i h
    subst h
    simp [slotOf, launch, waitsOf]
  · rename_i h
    simp [slotOf, launch, waitsOf, Ne.symm h]

private theorem slotOf_post (req : TransferRequest) :
    slotOf (post s base req) i =
      if instanceFor base = i then { slotOf s i with waits := (slotOf s i).waits ++ postedWait req.handle }
      else slotOf s i := by
  cases hh : req.handle <;> split <;> simp_all [slotOf, post, waitsOf, postedWait]

private theorem slotOf_receive : slotOf (receive s base) i = slotOf s i := by
  simp [slotOf, receive, waitsOf]

/-- A pop of one queue: empty, or its oldest request and nothing else. -/
private theorem popTransferRequest_cases :
    (popTransferRequest s base = none ∧ (slotOf s (instanceFor base)).queue = []) ∨
    ∃ req rest t, popTransferRequest s base = some (req, t) ∧ (slotOf s (instanceFor base)).queue = req :: rest ∧
      slotOf t i = if instanceFor base = i then { slotOf s i with queue := rest } else slotOf s i := by
  unfold popTransferRequest
  rcases (s.pending (instanceFor base)).pop_cases with ⟨hp, hq⟩ | ⟨req, q, hp, hq⟩
  · exact .inl ⟨by rw [hp]; rfl, hq⟩
  · refine .inr ⟨req, q.toList, _, by rw [hp]; rfl, hq, ?_⟩
    split
    · rename_i h
      subst h
      simp [slotOf]
    · rename_i h
      simp [slotOf, Ne.symm h]

private theorem served_slot {rejects : Prop} :
    ReflTransGen (SlotStep rejects) (slotOf s i) (slotOf (completeTransferFromIsr s base) i) := by
  unfold completeTransferFromIsr startNextOrIdle
  have hr (j : Instance) : slotOf (receive s base) j = slotOf s j := slotOf_receive s base j
  rcases popTransferRequest_cases (receive s base) base i with ⟨hp, hq⟩ | ⟨req, rest, t, hp, hq, ht⟩
  · rw [hp, slotOf_post]
    rw [hr] at hq
    by_cases h : instanceFor base = i
    · subst h
      have hs : SlotStep rejects (slotOf s (instanceFor base)) _ := .servedLast hq
      refine .single ?_
      simpa [slotOf, receive, waitsOf] using hs
    · rw [if_neg h, ← hr i]
      simp only [slotOf, Function.update_of_ne (Ne.symm h)]
      exact .refl
  · rw [hp, slotOf_post]
    simp only [slotOf_launch, ht, hr]
    rw [hr] at hq
    by_cases h : instanceFor base = i
    · subst h
      have hs : SlotStep rejects (slotOf s (instanceFor base)) _ := .servedNext hq
      refine .single ?_
      simp only [↓reduceIte]
      exact hs
    · simp only [if_neg h]
      exact .refl

/-- An await finds room in the queue of its instance. -/
def Room (s : State) : Action → Prop
  | .coAwait base _ _ _ => (s.pending (instanceFor base)).toList.length < 8
  | _ => True

instance (s : State) : (a : Action) → Decidable (Room s a)
  | .coAwait base _ _ _ => inferInstanceAs (Decidable ((s.pending (instanceFor base)).toList.length < 8))
  | .start | .exchange _ _ | .isr _ => .isTrue trivial

private theorem push_slot {rejects : Prop} (c : Coro) (tx rx : Span)
    (hrej : (s.pending (instanceFor base)).toList.length = 8 → rejects) :
    ReflTransGen (SlotStep rejects) (slotOf s i) (slotOf (awaitSuspendPush s base c tx rx) i) := by
  by_cases h : instanceFor base = i
  · subst h
    refine .single ?_
    rcases (s.pending (instanceFor base)).push_cases ⟨base, some c, tx, rx⟩ with ⟨hp, hl⟩ | ⟨q, hp, hq, -⟩
    · have hs : SlotStep rejects (slotOf s (instanceFor base)) _ := .rejected (hrej hl) c
      simpa [slotOf, awaitSuspendPush, queueTransferRequest, hp, waitsOf] using hs
    · have hc : (⟨base, some c, tx, rx⟩ : TransferRequest).handle = some c := rfl
      have hs : SlotStep rejects (slotOf s (instanceFor base)) _ := .accepted hc
      simpa [slotOf, awaitSuspendPush, queueTransferRequest, hp, hq, waitsOf] using hs
  · have hv : slotOf (awaitSuspendPush s base c tx rx) i = slotOf s i := by
      rcases (s.pending (instanceFor base)).push_cases ⟨base, some c, tx, rx⟩ with ⟨hp, -⟩ | ⟨q, hp, -, -⟩ <;>
        simp [slotOf, awaitSuspendPush, queueTransferRequest, hp, waitsOf, h, Ne.symm h]
    rw [hv]

private theorem start_slot {rejects : Prop} :
    ReflTransGen (SlotStep rejects) (slotOf s i) (slotOf (tryStartNextTransfer s base) i) := by
  unfold tryStartNextTransfer
  split
  · exact .refl
  · rename_i hb
    rcases popTransferRequest_cases s base i with ⟨hp, hq⟩ | ⟨req, rest, t, hp, hq, ht⟩
    · rw [hp]
    · rw [hp]
      simp only [slotOf_launch, ht]
      by_cases h : instanceFor base = i
      · subst h
        have hs : SlotStep rejects (slotOf s (instanceFor base)) _ := .started (Bool.eq_false_iff.mpr hb) hq
        refine .single ?_
        simp only [↓reduceIte]
        exact hs
      · simp only [if_neg h]
        exact .refl

/-- What one step of the driver does to each set of members. -/
theorem step_slot {rejects : Prop} (a : Action)
    (hrej : ∀ base c tx rx, a = .coAwait base c tx rx →
      (s.pending (instanceFor base)).toList.length = 8 → rejects) :
    ReflTransGen (SlotStep rejects) (slotOf s i) (slotOf (step s a) i) := by
  cases a with
  | coAwait base c tx rx =>
    simp only [step]
    split
    · exact push_slot s base i c tx rx (hrej base c tx rx rfl)
    · exact .refl
  | start =>
    simp only [step]
    split
    · exact start_slot s _ i
    · exact .refl
  | exchange base bytes =>
    have hv : slotOf (step s (.exchange base bytes)) i = slotOf s i := by
      simp only [step]
      split
      · split
        · simp [slotOf, waitsOf]
        · rfl
      · rfl
    rw [hv]
  | isr j => cases j <;> exact served_slot s _ i

variable {s} in
theorem Room.slot {a : Action} (h : Room s a) :
    ReflTransGen (SlotStep False) (slotOf s i) (slotOf (step s a) i) := by
  refine step_slot s i a ?_
  rintro base c tx rx rfl hfull
  exact absurd hfull (Nat.ne_of_lt h)

/-- The busy flag tells whether somebody waits for the active request, and
somebody waits for every queued one. -/
structure Slot.Consistent (v : Slot) : Prop where
  busy : v.busy = v.active.handle.isSome
  queued : ∀ r ∈ v.queue, r.handle.isSome

/-- The members hold a coroutine: in the queue, or in the active request. -/
def Slot.Holds (v : Slot) (c : Coro) : Prop :=
  (∃ r ∈ v.queue, r.handle = some c) ∨ (v.busy = true ∧ v.active.handle = some c)

def Slot.AllHeld (v : Slot) : Prop := Waiters.AllHeld v.Holds v.waits

variable {s base i} {rejects : Prop} {v w : Slot}

theorem SlotStep.consistent (hs : SlotStep rejects v w) (h : v.Consistent) : w.Consistent := by
  cases hs with
  | rejected ok c => exact ⟨h.busy, h.queued⟩
  | accepted hc =>
    refine ⟨h.busy, ?_⟩
    simp only [List.forall_mem_append, List.forall_mem_singleton]
    exact ⟨h.queued, by simp [hc]⟩
  | started idle hq =>
    have hm := h.queued
    simp only [hq, List.forall_mem_cons] at hm
    exact ⟨hm.1.symm, hm.2⟩
  | servedLast hq => exact ⟨rfl, h.queued⟩
  | servedNext hq =>
    have hm := h.queued
    simp only [hq, List.forall_mem_cons] at hm
    exact ⟨hm.1.symm, hm.2⟩

/-- The old active request is posted, and the rest is still held. -/
private theorem Slot.AllHeld.serve (h : v.AllHeld)
    (hk : ∀ c, (∃ r ∈ v.queue, r.handle = some c) → w.Holds c)
    (hw : w.waits = v.waits ++ postedWait v.active.handle) : w.AllHeld := by
  rw [Slot.AllHeld, hw]
  refine AllHeld.post_option h ?_
  rintro c (hq | ⟨-, ha⟩)
  · exact .inr (hk c hq)
  · exact .inl ha

theorem SlotStep.allHeld (hs : SlotStep False v w) (h : v.AllHeld) : w.AllHeld := by
  cases hs with
  | rejected ok c => exact ok.elim
  | @accepted req c hc =>
    refine AllHeld.suspend h ?_ (.inl ⟨req, by simp, hc⟩)
    rintro d (⟨r, hr, hd⟩ | ha)
    · exact .inl ⟨r, by simp [hr], hd⟩
    · exact .inr ha
  | started idle hq =>
    refine AllHeld.mono h ?_
    rintro d (⟨r, hr, hd⟩ | ⟨hb, -⟩)
    · rw [hq] at hr
      rcases List.mem_cons.mp hr with rfl | hr
      · exact .inr ⟨rfl, hd⟩
      · exact .inl ⟨r, hr, hd⟩
    · simp [idle] at hb
  | servedLast hq =>
    refine h.serve ?_ rfl
    simp [hq]
  | servedNext hq =>
    refine h.serve ?_ rfl
    rintro c ⟨r, hr, hc⟩
    rw [hq] at hr
    rcases List.mem_cons.mp hr with rfl | hr
    · exact .inr ⟨rfl, hc⟩
    · exact .inl ⟨r, hr, hc⟩

end IoProcessor.Hal.SpiDma
