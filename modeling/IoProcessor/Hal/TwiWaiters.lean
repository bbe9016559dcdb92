import IoProcessor.Hal.TwiLedger
import IoProcessor.Library.Waiters

/-! Who waits for a TWI bus, with interrupts at any time: whoever does is
queued, or waits for the active request, or for the one that the running
`start_transfer` is making active. -/
namespace IoProcessor.Hal.Twi
open Library MemoryMap History Waiters Relation

def waitsOf (t : List Event) : List (Wait Coro) :=
  t.filterMap fun | .suspended h => some (.suspended h) | .posted _ h => some (.posted h) | _ => none

def View.Holds (v : View) (c : Coro) : Prop :=
  (∃ r ∈ v.queue, r.handle = some c) ∨ (v.active = true ∧ v.request.handle = some c) ∨
    ∃ r ∈ v.inHand, r.handle = some c

def View.AllHeld (v : View) : Prop := Waiters.AllHeld v.Holds (waitsOf v.history)

variable {allowed : Stage → Bool → TwiRequest → Prop} {v w : View}

private theorem waitsOf_append (t u : List Event) : waitsOf (t ++ u) = waitsOf t ++ waitsOf u :=
  List.filterMap_append

private theorem waitsOf_finishEvents (req : TwiRequest) (result : TwiResult) :
    waitsOf (finishEvents req result) = postedWait req.handle := by
  cases hr : req.result <;> cases hh : req.handle <;> simp [finishEvents, waitsOf, postedWait, hr, hh]

namespace View.AllHeld

/-- Steps that end no wait and keep every request in its place or move it on. -/
theorem move (h : v.AllHeld) (ht : waitsOf w.history = waitsOf v.history) (hk : ∀ c, v.Holds c → w.Holds c) :
    w.AllHeld := by
  rw [View.AllHeld, ht]
  exact AllHeld.mono h hk

/-- The call of `finish`: what is queued stays held, the request is posted. -/
theorem finish (h : v.AllHeld) (result : TwiResult)
    (ht : waitsOf w.history = waitsOf (v.history ++ finishEvents v.request result))
    (hq : ∀ c, (∃ r ∈ v.queue, r.handle = some c) → w.Holds c) (hi : w.inHand = v.inHand) : w.AllHeld := by
  rw [View.AllHeld, ht, waitsOf_append, waitsOf_finishEvents]
  refine AllHeld.post_option h ?_
  rintro c (hc | ⟨-, hc⟩ | hc)
  · exact .inr (hq c hc)
  · exact .inl hc
  · exact .inr (.inr (.inr (hi ▸ hc)))

end View.AllHeld

theorem ViewStep.allHeld (hs : ViewStep False allowed v w) (hset : v.Settled) (h : v.AllHeld) : w.AllHeld := by
  cases hs with
  | rejected ok c out full => exact ok.elim
  | accepted c req out room hh hr ht =>
    rw [View.AllHeld, waitsOf_append]
    refine AllHeld.suspend h ?_ (.inl ⟨req, by simp, hh⟩)
    rintro d (⟨r, hr, hd⟩ | hd | hd)
    · exact .inl ⟨r, by simp [hr], hd⟩
    · exact .inr (.inl hd)
    · simp [View.inHand, out] at hd
  | foundActive hs ha => exact h.move rfl (by simp [View.Holds, View.inHand, hs])
  | foundIdle hs ha => exact h.move rfl (by simp [View.Holds, View.inHand, hs])
  | foundEmpty hs hq => exact h.move rfl (by simp [View.Holds, View.inHand, hs])
  | popped hs hq =>
    refine h.move rfl ?_
    rintro c (⟨r, hr, hc⟩ | hc | hc)
    · rw [hq] at hr
      rcases List.mem_cons.mp hr with rfl | hr
      · exact .inr (.inr ⟨r, by simp [View.inHand], hc⟩)
      · exact .inl ⟨r, hr, hc⟩
    · exact .inr (.inl hc)
    · simp [View.inHand, hs] at hc
  | wordStored hs hw =>
    have hk := TwiRequest.wordStores_lt hw
    rw [View.Settled, hs] at hset
    obtain ⟨ha, -⟩ := hset.1 (by omega)
    refine h.move rfl ?_
    simp only [View.Holds, View.inHand, hs, ha]
    rw [if_pos (by omega), if_pos (by omega)]
    simp
  | fieldStored hs h5 h9 =>
    refine h.move rfl ?_
    simp only [View.Holds, View.inHand, hs]
    rw [if_pos (by omega), if_pos (by omega)]
    exact fun c hc => hc
  | activated hs =>
    rw [View.Settled, hs] at hset
    obtain ⟨ha, hq, hr⟩ := hset.1 (by omega)
    refine h.move (by simp [waitsOf]) ?_
    simp [View.Holds, View.inHand, hs, ha, hq, hr.all (by omega)]
  | begunDone hs h11 =>
    refine h.move rfl ?_
    simp only [View.Holds, View.inHand, hs]
    rw [if_neg (by omega)]
    exact fun c hc => hc
  | accessed ok k hk he =>
    refine h.move ?_ fun c hc => hc
    rcases he with rfl | rfl <;> simp [waitsOf]
  | finishedLast ok result hr hq =>
    exact h.finish result rfl (by simp [hq]) rfl
  | finishedNext ok result hr hq =>
    refine h.finish result (by simp [waitsOf]) ?_ rfl
    rintro c ⟨r, hr, hc⟩
    rw [hq] at hr
    rcases List.mem_cons.mp hr with rfl | hr
    · exact .inr (.inl ⟨rfl, hc⟩)
    · exact .inl ⟨r, hr, hc⟩

/-- An await finds room in the queue of its bus. -/
def Room (s : State) (a : Action) : Prop := ∀ b ∈ a.awaits, (s.queue b).toList.length < 8

instance (s : State) (a : Action) : Decidable (Room s a) :=
  inferInstanceAs (Decidable (∀ b ∈ a.awaits, (s.queue b).toList.length < 8))

theorem Room.view {s : State} {a : Action} (h : Room s a) (b : Bus) :
    ReflTransGen (ViewStep False fun _ _ _ => True) (viewOf s b) (viewOf (step s a) b) := by
  refine step_view s a b (fun hb hfull => ?_) fun _ _ => trivial
  have := h b hb
  omega

end IoProcessor.Hal.Twi
