import IoProcessor.Hal.Gpio
import IoProcessor.Library.Rotation

/-! The pin waiters of Gpio: an interrupt is a sequence of dispatched events,
each event rotates the queue up to the waiter it serves, and what has been
awaited is what was posted and what is queued. -/
namespace IoProcessor.Hal.Gpio
open Library MemoryMap History Waiters

abbrev run (acts : List Action) : State := History.run step init acts

/-- Port and pin of an event. -/
abbrev PinEvent := Word × Word

def PinEventRequest.pinEvent (r : PinEventRequest) : PinEvent := (r.port, r.pin)

def waitsOn (e : PinEvent) (r : PinEventRequest) : Bool := r.pinEvent = e

def dispatchEvent (s : State) (e : PinEvent) : State := dispatchPinEvent s e.1 e.2

/-- The pins that the loop of `handle_bank_isr` takes out of the pending bits. -/
def pendingPins : Nat → Word → List Word
  | 0, _ => []
  | n+1, pending => if pending = 0 then [] else ctz pending :: pendingPins n (pending &&& (pending - 1))

/-- The events that an action dispatches, in order. -/
def dispatches (s : State) : Action → List PinEvent
  | .bankIsr port =>
    let r := s.regs (intRegsAddr port)
    (pendingPins 32 (r.status &&& r.ctl)).map (port, ·)
  | .isr port pin => [(port, pin)]
  | _ => []

/-- What an action does before it dispatches anything. -/
def acknowledged (s : State) (a : Action) : State :=
  match a with
  | .bankIsr port =>
    let r := s.regs (intRegsAddr port)
    let pending := r.status &&& r.ctl
    if pending = 0 then s else updateRegs s port fun r => r.writeStatus pending
  | .isr port pin => updateRegs s port fun r => r.writeStatus (bit pin)
  | _ => step s a

theorem servePins_eq_foldl (port : Word) (n : Nat) (pending : Word) (s : State) :
    servePins port n pending s = ((pendingPins n pending).map (port, ·)).foldl dispatchEvent s := by
  induction n generalizing pending s with
  | zero => rfl
  | succ n ih =>
    unfold servePins pendingPins
    split
    · rfl
    · rw [ih]
      rfl

theorem step_eq_foldl (s : State) (a : Action) :
    step s a = (dispatches s a).foldl dispatchEvent (acknowledged s a) := by
  cases a with
  | bankIsr port =>
    simp only [step, handleBankIsr, dispatches, acknowledged]
    split
    · rename_i hp
      rw [hp]
      rfl
    · exact servePins_eq_foldl port 32 _ _
  | isr port pin => rfl
  | _ => rfl

/-- The loop over the queue is a rotation. -/
theorem serveQueue_spec (port pin : Word) (n : Nat) (s : State) :
    let served := Rotation.serve (waitsOn (port, pin)) n s.pending.toList
    (serveQueue port pin n s).pending.toList = served.2 ∧
      (serveQueue port pin n s).trace = s.trace ++ ((served.1.bind (·.handle)).map Event.posted).toList := by
  induction n generalizing s with
  | zero => simp [serveQueue, Rotation.serve]
  | succ n ih =>
    unfold serveQueue
    rcases s.pending.pop_cases with ⟨hp, hq⟩ | ⟨req, q, hp, hq⟩
    · rw [hp, hq]
      simp [Rotation.serve]
    · rw [hp, hq]
      simp only [Rotation.serve, waitsOn, PinEventRequest.pinEvent, Prod.mk.injEq, decide_eq_true_eq]
      split
      · simp
      · rw [← rotate_toList hq]
        exact ih { s with pending := (q.push req).2 }

def suspendedOf (t : List Event) : List Coro := t.filterMap fun | .suspended h => some h | _ => none
def postedOf (t : List Event) : List Coro := t.filterMap fun | .posted h => some h | _ => none

@[simp] theorem filters_append (t u : List Event) :
    suspendedOf (t ++ u) = suspendedOf t ++ suspendedOf u ∧ postedOf (t ++ u) = postedOf t ++ postedOf u :=
  ⟨List.filterMap_append, List.filterMap_append⟩

@[simp] theorem filters_posted (o : Option Coro) :
    suspendedOf (o.map Event.posted).toList = [] ∧ postedOf (o.map Event.posted).toList = o.toList := by
  cases o <;> exact ⟨rfl, rfl⟩

private theorem callHandler_frame (s : State) (port pin : Word) :
    (callHandler s port pin).pending = s.pending ∧
      suspendedOf (callHandler s port pin).trace = suspendedOf s.trace ∧
      postedOf (callHandler s port pin).trace = postedOf s.trace := by
  unfold callHandler
  split
  · split
    · simp [suspendedOf, postedOf]
    · exact ⟨rfl, rfl, rfl⟩
  · exact ⟨rfl, rfl, rfl⟩

/-- What one event does: nobody waits for it and nothing is posted, or the
first who does is posted and the waiters before him go behind the others. -/
theorem dispatchEvent_cases (s : State) (e : PinEvent) :
    suspendedOf (dispatchEvent s e).trace = suspendedOf s.trace ∧
    (((∀ r ∈ s.pending.toList, r.pinEvent ≠ e) ∧ (dispatchEvent s e).pending.toList = s.pending.toList ∧
        postedOf (dispatchEvent s e).trace = postedOf s.trace) ∨
      ∃ pre r post, s.pending.toList = pre ++ r :: post ∧ (∀ x ∈ pre, x.pinEvent ≠ e) ∧ r.pinEvent = e ∧
        (dispatchEvent s e).pending.toList = post ++ pre ∧
        postedOf (dispatchEvent s e).trace = postedOf s.trace ++ r.handle.toList) := by
  obtain ⟨hq, hsus, hpost⟩ := callHandler_frame s e.1 e.2
  obtain ⟨hpend, htrace⟩ :=
    serveQueue_spec e.1 e.2 (callHandler s e.1 e.2).pending.currentSize (callHandler s e.1 e.2)
  have hd : dispatchEvent s e =
      serveQueue e.1 e.2 (callHandler s e.1 e.2).pending.currentSize (callHandler s e.1 e.2) := rfl
  rw [← hd, hq, ← QueueSpscIsr.length_toList] at hpend htrace
  rw [hpend, htrace]
  refine ⟨?_, ?_⟩
  · rw [(filters_append _ _).1, hsus, (filters_posted _).1, List.append_nil]
  · rcases Rotation.serve_cases (waitsOn e) s.pending.toList with ⟨hnone, hs⟩ | ⟨pre, r, post, hl, hpre, hr, hs⟩
    · refine .inl ⟨fun r hr => by simpa [waitsOn] using hnone r hr, by rw [hs], ?_⟩
      rw [hs]
      simp [hpost]
    · refine .inr ⟨pre, r, post, hl, fun x hx => by simpa [waitsOn] using hpre x hx, by simpa [waitsOn] using hr,
        by rw [hs], ?_⟩
      rw [hs]
      simp [hpost]

/-- The waiter that an action puts into the queue. -/
def awaitedBy (s : State) : Action → List PinEventRequest
  | .waitForEdge h port pin => if s.pc = .outside then [⟨some h, port, pin⟩] else []
  | _ => []

theorem acknowledged_spec {s : State} {a : Action} (ha : Room s a) :
    (acknowledged s a).pending.toList = s.pending.toList ++ awaitedBy s a ∧
      suspendedOf (acknowledged s a).trace = suspendedOf s.trace ++ (awaitedBy s a).filterMap (·.handle) ∧
      postedOf (acknowledged s a).trace = postedOf s.trace := by
  cases a with
  | waitForEdge h port pin =>
    simp only [acknowledged, step, awaitedBy]
    split
    · rcases s.pending.push_cases ⟨some h, port, pin⟩ with ⟨-, hfull⟩ | ⟨q, hp, hq, -⟩
      · exact absurd hfull (Nat.ne_of_lt ha)
      · simp [awaitSuspendPush, hp, hq, suspendedOf, postedOf]
    · simp
  | registerPinIsr port pin callback context trigger =>
    simp only [acknowledged, step, registerPinIsr, awaitedBy]
    split
    · split <;> simp
    · simp
  | unregisterPinIsr port pin =>
    simp only [acknowledged, step, awaitedBy]
    split <;> simp [unregisterPinIsr, disablePinInterrupt, updateRegs]
  | proceed =>
    simp only [acknowledged, step, awaitedBy]
    split <;> simp [enablePinInterrupt, clearSlots, updateRegs]
  | edge port pin => simp [acknowledged, step, awaitedBy, updateRegs]
  | bankIsr port =>
    simp only [acknowledged, awaitedBy]
    split <;> simp [updateRegs]
  | isr port pin => simp [acknowledged, awaitedBy, updateRegs]

/-- Every await is either posted or queued, and each as often as it was made. -/
structure Conserved (s : State) : Prop where
  named : ∀ r ∈ s.pending.toList, r.handle.isSome
  waiters : (suspendedOf s.trace).Perm (postedOf s.trace ++ s.pending.toList.filterMap (·.handle))

theorem Conserved.acknowledged {s : State} {a : Action} (hs : Conserved s) (ha : Room s a) :
    Conserved (acknowledged s a) := by
  obtain ⟨hq, hsus, hpost⟩ := acknowledged_spec ha
  constructor
  · intro r hr
    rw [hq, List.mem_append] at hr
    rcases hr with hr | hr
    · exact hs.named r hr
    · unfold awaitedBy at hr
      split at hr
      · split at hr <;> simp_all
      · simp at hr
  · rw [hq, hsus, hpost, List.filterMap_append, ← List.append_assoc]
    exact hs.waiters.append_right _

theorem Conserved.dispatchEvent {s : State} (hs : Conserved s) (e : PinEvent) : Conserved (dispatchEvent s e) := by
  obtain ⟨hsus, ⟨-, hq, hpost⟩ | ⟨pre, r, post, hl, -, -, hq, hpost⟩⟩ := dispatchEvent_cases s e
  · exact ⟨hq ▸ hs.named, by rw [hsus, hpost, hq]; exact hs.waiters⟩
  · have hn := hs.named
    have hw := hs.waiters
    rw [hl] at hn hw
    obtain ⟨c, hc⟩ := Option.isSome_iff_exists.mp (hn r (by simp))
    constructor
    · intro x hx
      rw [hq, List.mem_append] at hx
      exact hn x (by rcases hx with hx | hx <;> simp [hx])
    · rw [hsus, hpost, hq]
      refine hw.trans ?_
      simp only [List.filterMap_append, List.filterMap_cons, hc, Option.toList_some, List.append_assoc,
        List.singleton_append]
      exact ((List.perm_middle.trans (List.perm_append_comm.cons c))).append_left _

theorem Conserved.dispatched {s : State} (hs : Conserved s) (events : List PinEvent) :
    Conserved (events.foldl Gpio.dispatchEvent s) := by
  induction events generalizing s with
  | nil => exact hs
  | cons e events ih => exact ih (hs.dispatchEvent e)

theorem step_conserved {s : State} {a : Action} (hs : Conserved s) (ha : Room s a) : Conserved (step s a) := by
  rw [step_eq_foldl]
  exact (hs.acknowledged ha).dispatched _

theorem run_conserved {acts : List Action} (h : Along step Room init acts) : Conserved (run acts) :=
  run_invariant_along (fun _ _ hs ha => step_conserved hs ha) ⟨by simp [init], by simp [init]; rfl⟩ h

/-- A dispatched event posts one of those who wait for it and keeps the others,
or nobody waits for it and it posts nothing. -/
def Serves (s : State) (e : PinEvent) : Prop :=
  (∃ pre r c post, s.pending.toList = pre ++ r :: post ∧ r.pinEvent = e ∧ r.handle = some c ∧
    (dispatchEvent s e).pending.toList.Perm (pre ++ post) ∧
    postedOf (dispatchEvent s e).trace = postedOf s.trace ++ [c]) ∨
  ((∀ r ∈ s.pending.toList, r.pinEvent ≠ e) ∧ (dispatchEvent s e).pending.toList = s.pending.toList ∧
    postedOf (dispatchEvent s e).trace = postedOf s.trace)

theorem Conserved.serves {s : State} (hs : Conserved s) (e : PinEvent) : Serves s e := by
  obtain ⟨-, hnone | ⟨pre, r, post, hl, -, hr, hq, hpost⟩⟩ := dispatchEvent_cases s e
  · exact .inr hnone
  · obtain ⟨c, hc⟩ := Option.isSome_iff_exists.mp (hs.named r (by simp [hl]))
    refine .inl ⟨pre, r, c, post, hl, hr, hc, ?_, by rw [hpost, hc]; rfl⟩
    rw [hq]
    exact List.perm_append_comm

/-- A step enqueues whom it makes wait and then dispatches its events one after
another, each of which serves. -/
def EachServed (s : State) (a : Action) : Prop :=
  (acknowledged s a).pending.toList = s.pending.toList ++ awaitedBy s a ∧
  postedOf (acknowledged s a).trace = postedOf s.trace ∧
  step s a = (dispatches s a).foldl dispatchEvent (acknowledged s a) ∧
  ∀ before e after, dispatches s a = before ++ e :: after →
    Serves (before.foldl dispatchEvent (acknowledged s a)) e

/-- Pin waiters are conserved: every dispatched event serves, and every await
is posted at most once. -/
theorem waiters_conserved (acts : List Action) (h : Along step Room init acts) :
    let s := run acts
    (∀ a, Room s a → EachServed s a) ∧
    (suspendedOf s.trace).Perm (postedOf s.trace ++ s.pending.toList.filterMap (·.handle)) ∧
    ∀ c, (postedOf s.trace).count c ≤ (suspendedOf s.trace).count c := by
  have hs := run_conserved h
  refine ⟨fun a ha => ?_, hs.waiters, ?_⟩
  · obtain ⟨hq, -, hpost⟩ := acknowledged_spec ha
    exact ⟨hq, hpost, step_eq_foldl _ a, fun before e _ _ => ((hs.acknowledged ha).dispatched before).serves e⟩
  · intro c
    rw [hs.waiters.count_eq, List.count_append]
    exact Nat.le_add_right _ _

/-- Two waiters on one pin and one on another, and a bank interrupt for both. -/
private def sharedPin : List Action :=
  [.waitForEdge 5 0 1, .proceed, .waitForEdge 6 0 2, .proceed, .waitForEdge 7 0 1, .proceed,
    .edge 0 2, .edge 0 1]

theorem waiters_conserved_sharedPin :
    Along step Room init sharedPin ∧ EachServed (run sharedPin) (.bankIsr 0) ∧
      postedOf (step (run sharedPin) (.bankIsr 0)).trace = [5, 6] :=
  ⟨by decide, (waiters_conserved sharedPin (by decide)).1 _ trivial, by decide⟩

end IoProcessor.Hal.Gpio
