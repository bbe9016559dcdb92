import IoProcessor.Hal.TwiLedger

/-! Runs of the TWI driver: a posted request is left alone and transfers are
serialised, as long as interrupts come for live transfers. -/
namespace IoProcessor.Hal.Twi
open Library MemoryMap History Relation
variable {rejects : Prop} {v w : View}

/-- Interrupts that touch a request find its transfer active, or find none. -/
def LiveInterrupts (s : State) : Action → Prop
  | .isr b => Touching s b → LiveOrNone (s.state b).active (s.state b).request
  | _ => True

instance (s : State) : (a : Action) → Decidable (LiveInterrupts s a)
  | .isr b => inferInstanceAs (Decidable (Touching s b → LiveOrNone (s.state b).active (s.state b).request))
  | .coAwaitRead _ _ _ _ _ _ | .coAwaitWrite _ _ _ _ _ _ | .proceed | .hardware _ _ _ _ => .isTrue trivial

theorem LiveInterrupts.view {s : State} {a : Action} (h : LiveInterrupts s a) (b : Bus) :
    ReflTransGen (ViewStep True fun _ => LiveOrNone) (viewOf s b) (viewOf (step s a) b) := by
  refine step_view s a b (fun _ _ => trivial) ?_
  rintro rfl
  exact h

/-- What the transitions of a bus keep, with interrupts at any time, holds in
every run. -/
theorem run_keeps {Inv : View → Prop} (keep : ∀ v w, ViewStep True (fun _ _ _ => True) v w → Inv v → Inv w)
    (ram : Memory) (acts : List Action) (b : Bus) (hinit : Inv (viewOf (init ram) b)) :
    Inv (viewOf (run ram acts) b) := by
  have simulates (s : State) (a : Action) (_ : True) :
      ReflTransGen (ViewStep True fun _ _ _ => True) (viewOf s b) (viewOf (step s a) b) :=
    step_view s a b (fun _ _ => trivial) fun _ _ => trivial
  exact run_view_invariant simulates keep hinit (along_of_forall (fun _ _ => trivial) _ acts)

/-- In every run, the active flag and the queue of a bus go together. -/
theorem run_settled (ram : Memory) (acts : List Action) (b : Bus) : (viewOf (run ram acts) b).Settled :=
  run_keeps (fun _ _ => ViewStep.settled) ram acts b (Or.inr rfl)

theorem run_ledger {ram : Memory} {acts : List Action} (h : Along step LiveInterrupts (init ram) acts) (b : Bus) :
    (viewOf (run ram acts) b).Ledger := by
  have hinit : (viewOf (init ram) b).Settled ∧ (viewOf (init ram) b).Ledger :=
    ⟨Or.inr rfl, View.ledger_init ram b⟩
  have keep (v w : View) (hs : ViewStep True (fun _ => LiveOrNone) v w) (hv : v.Settled ∧ v.Ledger) : w.Settled ∧ w.Ledger :=
    ⟨hs.settled hv.1, hs.ledger (fun _ _ _ => id) hv.1 hv.2⟩
  have simulates (s : State) (a : Action) (ha : LiveInterrupts s a) := ha.view b
  exact (run_view_invariant simulates keep hinit h).2

/-- A request that has been posted is not touched by any later interrupt, in
every run whose interrupts touch only live requests. -/
theorem posted_request_dead (ram : Memory) (acts : List Action)
    (h : Along step LiveInterrupts (init ram) acts) (b : Bus) : AtEvery Dead ((run ram acts).history b) :=
  (run_ledger h b).dead

/-- A register write of no payload bytes on the first bus, with its `begin`. -/
private def emptyWrite : List Action :=
  .coAwaitWrite sTwi0Base 1 0x68 0x10 ⟨0x1000, 0⟩ 0x2000 :: List.replicate 14 .proceed

private def interrupt (stat : Word) : List Action :=
  [.hardware sTwi0Base (cntrIntFlag ||| cntrBusEn ||| cntrIntEn) stat 0, .isr .twi0]

/-- A whole transfer, then an interrupt that finds the controller started. -/
private def writtenThenStart : List Action :=
  emptyWrite ++ interrupt statStart ++ interrupt statAddrWAck ++ interrupt statDataTxAck ++ interrupt statStart

theorem posted_request_dead_written :
    let s := run (fun _ => 0) writtenThenStart
    handlesOf (s.history .twi0) = [1] ∧ AtEvery Dead (s.history .twi0) :=
  ⟨by decide, posted_request_dead (fun _ => 0) writtenThenStart (by decide) .twi0⟩

/-- A bus error after the end of a transfer posts its coroutine once more. -/
theorem bus_error_posts_again :
    let s := run (fun _ => 0) (emptyWrite ++ interrupt statBusError ++ interrupt statBusError)
    handlesOf (s.history .twi0) = [1, 1] ∧ ¬ AtEvery Dead (s.history .twi0) := by
  decide

/-- With interrupts for active transfers only, every finished request is one
that a coroutine waits for. -/
private theorem ViewStep.finished_isSome (hs : ViewStep rejects (fun _ active _ => active = true) v w) (hl : v.Ledger)
    (h : ∀ r ∈ finishedOf v.history, r.handle.isSome) : ∀ r ∈ finishedOf w.history, r.handle.isSome := by
  cases hs with
  | accessed ok k hk he => rcases he with rfl | rfl <;> simpa using h
  | finishedLast ok result hr hq =>
    obtain ⟨⟨c, hc⟩, hres⟩ := hl.active_complete ok
    rw [finishEvents_complete hc hres]
    simpa [or_imp, forall_and, hc] using h
  | finishedNext ok result hr hq =>
    obtain ⟨⟨c, hc⟩, hres⟩ := hl.active_complete ok
    rw [finishEvents_complete hc hres]
    simpa [or_imp, forall_and, hc] using h
  | _ => simpa using h

/-- Interrupts are taken only while a transfer of their bus is active. -/
def ActiveInterrupts (s : State) : Action → Prop
  | .isr b => (s.state b).active = true
  | _ => True

instance (s : State) : (a : Action) → Decidable (ActiveInterrupts s a)
  | .isr b => inferInstanceAs (Decidable ((s.state b).active = true))
  | .coAwaitRead _ _ _ _ _ _ | .coAwaitWrite _ _ _ _ _ _ | .proceed | .hardware _ _ _ _ => .isTrue trivial

private theorem run_finished {ram : Memory} {acts : List Action}
    (h : Along step ActiveInterrupts (init ram) acts) (b : Bus) :
    (viewOf (run ram acts) b).Ledger ∧
      finishedOf ((run ram acts).history b) = postedOf ((run ram acts).history b) := by
  let Inv (v : View) : Prop := v.Settled ∧ v.Ledger ∧ ∀ r ∈ finishedOf v.history, r.handle.isSome
  have hinit : Inv (viewOf (init ram) b) := ⟨Or.inr rfl, View.ledger_init ram b, by simp [viewOf, init]⟩
  have simulates (s : State) (a : Action) (ha : ActiveInterrupts s a) :
      ReflTransGen (ViewStep True fun _ active _ => active = true) (viewOf s b) (viewOf (step s a) b) := by
    refine step_view s a b (fun _ _ => trivial) ?_
    rintro rfl _
    exact ha
  have keep (v w : View) (hs : ViewStep True (fun _ active _ => active = true) v w) (hv : Inv v) : Inv w :=
    ⟨hs.settled hv.1, hs.ledger (fun _ _ _ => .inl) hv.1 hv.2.1, hs.finished_isSome hv.2.1 hv.2.2⟩
  obtain ⟨-, hl, hf⟩ := run_view_invariant simulates keep hinit h
  refine ⟨hl, ?_⟩
  have hp := hl.finished
  rwa [List.filter_eq_self.mpr hf] at hp

/-- The bus that an action works on. -/
def Action.target (s : State) : Action → Option Bus
  | .coAwaitRead base _ _ _ _ _ | .coAwaitWrite base _ _ _ _ _ => some (busFor base)
  | .proceed =>
    match s.pc with
    | .outside => none
    | .pushed base | .tested base | .beginning base _ _ => some (busFor base)
  | .hardware _ _ _ _ => none
  | .isr b => some b

/-- An operation on one bus leaves the queue and the transfer state of the
others as they are. -/
theorem step_frame (s : State) (a : Action) (b : Bus) (h : a.target s ≠ some b) :
    (step s a).queue b = s.queue b ∧ (step s a).state b = s.state b := by
  have hpush (base : Word) (c : Coro) (r : TwiRequest) (result : Word) (hb : busFor base ≠ b) :
      (awaitSuspendPush s base c r result).queue b = s.queue b ∧
        (awaitSuspendPush s base c r result).state b = s.state b := by
    simp [awaitSuspendPush, Ne.symm hb]
  cases a with
  | coAwaitRead base c address regAddr dest result =>
    simp only [step]
    split
    · exact hpush base c _ result (by simpa [Action.target] using h)
    · exact ⟨rfl, rfl⟩
  | coAwaitWrite base c address regAddr src result =>
    simp only [step]
    split
    · exact hpush base c _ result (by simpa [Action.target] using h)
    · exact ⟨rfl, rfl⟩
  | proceed =>
    cases hpc : s.pc with
    | outside => simp [step, startTransferStep, hpc]
    | pushed base => simp [step, startTransferStep, hpc]
    | tested base =>
      have hb : b ≠ busFor base := by simpa [Action.target, hpc, eq_comm] using h
      simp only [step, startTransferStep, hpc]
      split <;> simp [hb]
    | beginning base req k =>
      have hb : b ≠ busFor base := by simpa [Action.target, hpc, eq_comm] using h
      simp only [step, startTransferStep, hpc]
      split <;> simp [commit, hb]
  | hardware base cntr stat data => exact ⟨rfl, rfl⟩
  | isr c =>
    have hc : b ≠ c := by simpa [Action.target, eq_comm] using h
    simp [step, handleIsr, commit, hc]

/-- Over every interleaving of awaits with interrupts for active transfers,
each bus runs one transfer at a time in the order of the pushes, posts exactly
the finished requests, each after its result was set, has an empty queue when
it is inactive outside `await_suspend`, and is left alone by the other buses. -/
theorem transfers_serialised (ram : Memory) (acts : List Action)
    (h : Along step ActiveInterrupts (init ram) acts) (b : Bus) :
    let s := run ram acts
    let t := s.history b
    AtEvery BusOrder t ∧ begunOf t <+: pushedOf t ∧
      begunOf t = finishedOf t ++ (if (s.state b).active then [(s.state b).request] else []) ∧
      (handlesOf t).map some = (finishedOf t).map (·.handle) ∧
      (stageOf s.pc b = .outside → (s.state b).active = false → (s.queue b).toList = []) ∧
      ∀ a, a.target s ≠ some b → (step s a).queue b = s.queue b ∧ (step s a).state b = s.state b := by
  intro s t
  obtain ⟨hl, hf⟩ := run_finished h b
  refine ⟨hl.order, ?_, ?_, ?_, ?_, fun a ha => step_frame s a b ha⟩
  · have hp := hl.pushed
    rw [List.append_assoc] at hp
    exact ⟨_, hp.symm⟩
  · exact hl.begun.trans (congrArg (· ++ _) hf.symm)
  · rw [hf]
    exact hl.handles
  · intro hout hidle
    have hset := run_settled ram acts b
    rw [View.Settled, show (viewOf (run ram acts) b).stage = .outside from hout] at hset
    refine hset.resolve_left fun ha => ?_
    exact absurd (hidle.symm.trans ha) (by simp)

/-- Two coroutines on one bus: the second is queued while the first transfer is
active, and begun by the interrupt that ends it. -/
private def twoWrites : List Action :=
  emptyWrite ++ .coAwaitWrite sTwi0Base 2 0x68 0x11 ⟨0x1000, 1⟩ 0x2004 :: .proceed :: interrupt statBusError

theorem transfers_serialised_two_writes :
    let s := run (fun _ => 0) twoWrites
    (begunOf (s.history .twi0)).length = 2 ∧ (s.state .twi0).active = true ∧
      begunOf (s.history .twi0) <+: pushedOf (s.history .twi0) :=
  ⟨by decide, by decide, (transfers_serialised (fun _ => 0) twoWrites (by decide) .twi0).2.1⟩

end IoProcessor.Hal.Twi
