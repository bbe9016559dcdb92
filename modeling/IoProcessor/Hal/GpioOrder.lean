import IoProcessor.Hal.GpioWaiters

/-! The order in which the waiters of one pin are posted. An event leaves the
queue rotated up to the waiter it serves, so waiters that stand on both sides
of him change places. -/
namespace IoProcessor.Hal.Gpio
open Library MemoryMap History Waiters

/-- The machine together with the waiters in the order in which they were
accepted and posted. -/
structure Watched where
  state : State
  awaited : List PinEventRequest
  posted : List PinEventRequest

namespace Watched

def acknowledge (w : Watched) (a : Action) : Watched :=
  { w with state := acknowledged w.state a, awaited := w.awaited ++ awaitedBy w.state a }

def dispatch (w : Watched) (e : PinEvent) : Watched :=
  { w with
    state := dispatchEvent w.state e
    posted := w.posted ++ (w.state.pending.toList.find? (waitsOn e)).toList }

def step (w : Watched) (a : Action) : Watched := (dispatches w.state a).foldl dispatch (w.acknowledge a)

def init : Watched := ⟨Gpio.init, [], []⟩

abbrev run (acts : List Action) : Watched := History.run step init acts

end Watched

/-- Those posted for a pin are the first who waited for it, in their order. -/
def FirstComeFirstServed (w : Watched) : Prop :=
  ∀ e, w.posted.filter (waitsOn e) <+: w.awaited.filter (waitsOn e)

/-- Nobody ahead of the waiter whom the event serves waits for the same pin as
somebody behind him. -/
def OrderKept (s : State) (e : PinEvent) : Prop :=
  ∀ x ∈ s.pending.toList.takeWhile (!waitsOn e ·), ∀ y ∈ (s.pending.toList.dropWhile (!waitsOn e ·)).tail,
    x.pinEvent ≠ y.pinEvent

instance (s : State) (e : PinEvent) : Decidable (OrderKept s e) :=
  inferInstanceAs (Decidable (∀ x ∈ _, ∀ y ∈ _, _ ≠ _))

/-- The events of an action find the queue so, one after another. -/
def KeepsOrder (s : State) (a : Action) : Prop :=
  Along dispatchEvent OrderKept (acknowledged s a) (dispatches s a)

instance (s : State) (a : Action) : Decidable (KeepsOrder s a) :=
  inferInstanceAs (Decidable (Along _ _ _ _))

namespace Watched

theorem dispatch_foldl_state (w : Watched) (events : List PinEvent) :
    (events.foldl dispatch w).state = events.foldl dispatchEvent w.state := by
  have hd (w : Watched) (e : PinEvent) : (w.dispatch e).state = dispatchEvent w.state e := rfl
  exact run_project hd w events

theorem step_state (w : Watched) (a : Action) : (w.step a).state = Gpio.step w.state a := by
  rw [step_eq_foldl]
  exact dispatch_foldl_state _ _

theorem run_state (acts : List Action) : (run acts).state = Gpio.run acts := run_project step_state init acts

/-- One event: its waiters are as they were, or the first of them is posted. -/
theorem dispatch_cases (w : Watched) (e : PinEvent) :
    suspendedOf (w.dispatch e).state.trace = suspendedOf w.state.trace ∧
    (((w.dispatch e).posted = w.posted ∧ (w.dispatch e).state.pending.toList = w.state.pending.toList ∧
        postedOf (w.dispatch e).state.trace = postedOf w.state.trace) ∨
      ∃ pre r post, w.state.pending.toList = pre ++ r :: post ∧ (∀ x ∈ pre, x.pinEvent ≠ e) ∧ r.pinEvent = e ∧
        (w.dispatch e).posted = w.posted ++ [r] ∧ (w.dispatch e).state.pending.toList = post ++ pre ∧
        postedOf (w.dispatch e).state.trace = postedOf w.state.trace ++ r.handle.toList) := by
  obtain ⟨hsus, ⟨hnone, hq, hpost⟩ | ⟨pre, r, post, hl, hpre, hr, hq, hpost⟩⟩ := dispatchEvent_cases w.state e
  · have hf : w.state.pending.toList.find? (waitsOn e) = none := by simpa [waitsOn] using hnone
    exact ⟨hsus, .inl ⟨by simp [dispatch, hf], hq, hpost⟩⟩
  · have hf : w.state.pending.toList.find? (waitsOn e) = some r := by
      rw [List.find?_eq_some_iff_append]
      exact ⟨by simpa [waitsOn] using hr, pre, post, hl, by simpa [waitsOn] using hpre⟩
    exact ⟨hsus, .inr ⟨pre, r, post, hl, hpre, hr, by simp [dispatch, hf], hq, hpost⟩⟩

/-- The two lists are the suspensions and the posts of the history. -/
structure Recorded (w : Watched) : Prop where
  awaits : suspendedOf w.state.trace = w.awaited.filterMap (·.handle)
  posts : postedOf w.state.trace = w.posted.filterMap (·.handle)

/-- For every pin, who waited is who was posted followed by who is queued. -/
def Ordered (w : Watched) : Prop :=
  ∀ e, w.awaited.filter (waitsOn e) = w.posted.filter (waitsOn e) ++ w.state.pending.toList.filter (waitsOn e)

theorem Ordered.firstComeFirstServed {w : Watched} (h : Ordered w) : FirstComeFirstServed w :=
  fun e => ⟨_, (h e).symm⟩

theorem Recorded.acknowledge {w : Watched} {a : Action} (h : Recorded w) (ha : Room w.state a) :
    Recorded (w.acknowledge a) := by
  obtain ⟨-, hsus, hpost⟩ := acknowledged_spec ha
  exact ⟨by simp [Watched.acknowledge, hsus, h.awaits], by simp [Watched.acknowledge, hpost, h.posts]⟩

theorem Recorded.dispatch {w : Watched} (h : Recorded w) (e : PinEvent) : Recorded (w.dispatch e) := by
  obtain ⟨hsus, ⟨hp, -, hpost⟩ | ⟨-, r, -, -, -, -, hp, -, hpost⟩⟩ := w.dispatch_cases e
  · exact ⟨hsus.trans h.awaits, by rw [hpost, hp, h.posts]⟩
  · refine ⟨hsus.trans h.awaits, ?_⟩
    rw [hpost, hp, h.posts, List.filterMap_append]
    cases hr : r.handle <;> simp [hr]

theorem Ordered.acknowledge {w : Watched} {a : Action} (h : Ordered w) (ha : Room w.state a) :
    Ordered (w.acknowledge a) := by
  intro e
  simp [Watched.acknowledge, (acknowledged_spec ha).1, h e]

theorem Ordered.dispatch {w : Watched} {e : PinEvent} (h : Ordered w) (he : OrderKept w.state e) :
    Ordered (w.dispatch e) := by
  intro k
  obtain ⟨-, ⟨hp, hq, -⟩ | ⟨pre, r, post, hl, hpre, hr, hp, hq, -⟩⟩ := w.dispatch_cases e
  · rw [hp, hq]
    exact h k
  · have hskip : ∀ x ∈ pre, (!waitsOn e x) = true := fun x hx => by simpa [waitsOn] using hpre x hx
    have hstop : (!waitsOn e r) = false := by simpa [waitsOn] using hr
    have apart : ∀ x ∈ pre, ∀ y ∈ post, x.pinEvent ≠ y.pinEvent := by
      unfold OrderKept at he
      rw [hl, List.takeWhile_append_of_pos hskip, List.dropWhile_append_of_pos hskip] at he
      simpa [hstop] using he
    have hturn : (pre ++ r :: post).filter (waitsOn k) = [r].filter (waitsOn k) ++ (post ++ pre).filter (waitsOn k) :=
      Rotation.filter_rotated (fun x hx => hr ▸ hpre x hx) apart k
    have hk := h k
    rw [hl, hturn] at hk
    rw [hp, hq, List.filter_append, List.append_assoc]
    exact hk

theorem Recorded.step {w : Watched} {a : Action} (h : Recorded w) (ha : Room w.state a) : Recorded (w.step a) :=
  run_invariant (fun _ e hw => hw.dispatch e) (h.acknowledge ha) _

theorem Ordered.step {w : Watched} {a : Action} (h : Ordered w) (ha : Room w.state a) (hk : KeepsOrder w.state a) :
    Ordered (w.step a) := by
  have hd (w : Watched) (e : PinEvent) : (w.dispatch e).state = dispatchEvent w.state e := rfl
  have hk : Along Watched.dispatch (fun w e => OrderKept w.state e) (w.acknowledge a) (dispatches w.state a) :=
    Along.lift hd hk
  exact run_invariant_along (fun _ _ hw he => hw.dispatch he) (h.acknowledge ha) hk

theorem run_recorded {acts : List Action} (room : Along Gpio.step Room Gpio.init acts) : Recorded (run acts) := by
  have room : Along step (fun w a => Room w.state a) init acts := Along.lift step_state room
  exact run_invariant_along (fun _ _ hw ha => hw.step ha) ⟨rfl, rfl⟩ room

theorem run_ordered {acts : List Action} (room : Along Gpio.step Room Gpio.init acts)
    (order : Along Gpio.step KeepsOrder Gpio.init acts) : Ordered (run acts) := by
  have hboth : Along step (fun w a => Room w.state a ∧ KeepsOrder w.state a) init acts :=
    Along.lift (C := fun s a => Room s a ∧ KeepsOrder s a) step_state (room.and order)
  exact run_invariant_along (fun _ _ hw ha => hw.step ha.1 ha.2) (fun _ => rfl) hboth

end Watched

/-- As long as no event is dispatched over two waiters of another pin, the
waiters of every pin are posted in the order in which they came. -/
theorem waiters_first_come_first_served (acts : List Action) (room : Along step Room init acts)
    (order : Along step KeepsOrder init acts) :
    let w := Watched.run acts
    w.state = run acts ∧ w.Recorded ∧ FirstComeFirstServed w :=
  ⟨Watched.run_state acts, Watched.run_recorded room, (Watched.run_ordered room order).firstComeFirstServed⟩

/-- Coroutines 5 and 7 wait for pin 1, and 6 for pin 2. -/
private def twoPins (first second : Word) : List Action :=
  [.waitForEdge 5 0 1, .proceed, .waitForEdge 6 0 2, .proceed, .waitForEdge 7 0 1, .proceed,
    .isr 0 first, .isr 0 second]

theorem waiters_first_come_first_served_twoPins :
    let w := Watched.run (twoPins 1 1)
    (Along step Room init (twoPins 1 1) ∧ Along step KeepsOrder init (twoPins 1 1)) ∧
      (w.state = run (twoPins 1 1) ∧ w.Recorded ∧ FirstComeFirstServed w) ∧ postedOf w.state.trace = [5, 7] :=
  ⟨by decide, waiters_first_come_first_served _ (by decide) (by decide), by decide⟩

/-- The event on pin 2 puts 5 behind 7, whom the event on pin 1 then posts. -/
theorem waiters_overtaken :
    let w := Watched.run (twoPins 2 1)
    Along step Room init (twoPins 2 1) ∧ w.state = run (twoPins 2 1) ∧
      w.awaited = [⟨some 5, 0, 1⟩, ⟨some 6, 0, 2⟩, ⟨some 7, 0, 1⟩] ∧
      w.posted = [⟨some 6, 0, 2⟩, ⟨some 7, 0, 1⟩] ∧ w.state.pending.toList = [⟨some 5, 0, 1⟩] ∧
      ¬ FirstComeFirstServed w := by
  refine ⟨by decide, Watched.run_state _, by decide, by decide, by decide, fun h => ?_⟩
  have hpin := h (0, 1)
  revert hpin
  decide

end IoProcessor.Hal.Gpio
