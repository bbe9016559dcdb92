import IoProcessor.Hal.TwiSerial

/-! TwiDriver's use of the caller's buffers: the index of a transfer against
the length of its request, and the length against the span of the await. -/
namespace IoProcessor.Hal.Twi
open Library MemoryMap History Relation

namespace Device

/-- What the parts of the handler keep, the handler keeps. -/
theorem handleIsr_keeps {Inv : Device → Prop} (regs : ∀ d r, Inv d → Inv { d with regs := r })
    (phase : ∀ d sent read, Inv d → Inv { d with state.sentRegAddr := sent, state.phaseIsRead := read })
    (write : ∀ d, Inv d → Inv d.writeNextByte) (store : ∀ d, Inv d → Inv d.storeByte)
    (finish : ∀ d result, Inv d → Inv (d.finish result)) {d : Device} (h : Inv d) : Inv d.handleIsr := by
  have read : Inv d.readNextByte := iteInduction (fun _ => regs _ _ (store d h)) fun _ => store d h
  unfold handleIsr
  refine iteInduction (fun _ => h) fun _ => ?_
  refine iteInduction (fun _ => regs d _ h) fun _ => ?_
  refine iteInduction (fun _ => regs _ _ ?_) fun _ => ?_
  · refine iteInduction (fun _ => write d h) fun _ => ?_
    exact regs _ (d.regs.writeData _) (phase d true d.state.phaseIsRead h)
  refine iteInduction (fun _ => regs _ _ ?_) fun _ => ?_
  · refine iteInduction (fun _ => ?_) fun _ => write d h
    exact regs _ _ (phase d d.state.sentRegAddr true h)
  refine iteInduction (fun _ => regs d _ h) fun _ => ?_
  refine iteInduction (fun _ => regs _ _ read) fun _ => ?_
  refine iteInduction (fun _ => finish _ _ read) fun _ => ?_
  exact iteInduction (fun _ => finish d _ h) fun _ => finish d _ h

def Bounded (d : Device) : Prop := d.state.index ≤ d.state.request.length

theorem beginStores_pushed {req : TwiRequest} {store : Device → Device} (h : store ∈ beginStores req) (d : Device) :
    pushedOf (store d).history = pushedOf d.history := by
  simp only [beginStores, List.mem_append, List.mem_map, List.mem_cons, List.not_mem_nil, or_false] at h
  rcases h with ⟨store, -, rfl⟩ | rfl | rfl | rfl | rfl | rfl | rfl | rfl <;> simp [orCntr]

theorem begin_pushed (d : Device) (req : TwiRequest) : pushedOf (d.begin req).history = pushedOf d.history := by
  simp [begin, beginStores, TwiRequest.wordStores, orCntr]

theorem pushedOf_finishEvents (req : TwiRequest) (result : TwiResult) : pushedOf (finishEvents req result) = [] := by
  cases hr : req.result <;> cases hh : req.handle <;> simp [finishEvents, hr, hh]

theorem begin_bounded (d : Device) (req : TwiRequest) : (d.begin req).Bounded := Nat.zero_le _

theorem finish_bounded (d : Device) (result : TwiResult) (h : d.Bounded) : (d.finish result).Bounded := by
  obtain ⟨e, he, -, hs, -⟩ := d.finish_eq result
  rw [he, beginNext]
  split
  · exact begin_bounded _ _
  · rw [Bounded, hs]
    exact h

theorem next_le {k n : BitVec 16} (h : k < n) : k + 1 ≤ n := by
  bv_omega

theorem writeNextByte_bounded (d : Device) (h : d.Bounded) : d.writeNextByte.Bounded := by
  unfold writeNextByte
  split
  · exact d.finish_bounded .ok h
  · rename_i hk
    exact next_le (BitVec.not_le.mp hk)

theorem storeByte_bounded (d : Device) (h : d.Bounded) : d.storeByte.Bounded := by
  unfold storeByte
  split
  · rename_i hk
    exact next_le hk
  · exact h

theorem handleIsr_bounded {d : Device} (h : d.Bounded) : d.handleIsr.Bounded :=
  handleIsr_keeps (fun _ _ h => h) (fun _ _ _ h => h) writeNextByte_bounded storeByte_bounded finish_bounded h

/-- The handler takes from the queue and never pushes. -/
theorem handleIsr_pushed (d : Device) : pushedOf d.handleIsr.history = pushedOf d.history := by
  let Same (e : Device) : Prop := pushedOf e.history = pushedOf d.history
  have finish (e : Device) (result : TwiResult) (h : Same e) : Same (e.finish result) := by
    obtain ⟨f, hf, -, -, ht⟩ := e.finish_eq result
    have hfinish : pushedOf f.history = pushedOf d.history := by
      rw [ht, (filters_append _ _).1, pushedOf_finishEvents, List.append_nil]
      exact h
    rw [hf, beginNext]
    split
    · exact (begin_pushed _ _).trans hfinish
    · exact hfinish
  have write (e : Device) (h : Same e) : Same e.writeNextByte :=
    iteInduction (fun _ => finish e .ok h) fun _ => by simpa [Same] using h
  have store (e : Device) (h : Same e) : Same e.storeByte :=
    iteInduction (fun _ => by simpa [Same] using h) fun _ => h
  have hd : Same d := rfl
  exact handleIsr_keeps (fun _ _ h => h) (fun _ _ _ h => h) write store finish hd

end Device

/-- `begin` has copied some words of the request and not yet all. -/
def Stage.Copying : Stage → Prop
  | .beginning _ k => 1 ≤ k ∧ k ≤ 4
  | _ => False

/-- `begin` has started to replace the request and not yet reset the index. -/
def Stage.Replacing : Stage → Prop
  | .beginning _ k => 1 ≤ k ∧ k ≤ 5
  | _ => False

def InBounds (s : State) (b : Bus) : Prop :=
  (s.state b).index ≤ (s.state b).request.length ∨ (stageOf s.pc b).Replacing

/-- A `begin` on the bus leaves the index in bounds when it has reset it. -/
private theorem beginning_inBounds (s : State) {base : Word} {req : TwiRequest} {k : Nat}
    (hpc : s.pc = .beginning base req k) (h : InBounds s (busFor base)) :
    InBounds (startTransferStep s) (busFor base) := by
  have old (hk : ¬ (1 ≤ k ∧ k ≤ 5)) : (s.state (busFor base)).index ≤ (s.state (busFor base)).request.length :=
    h.resolve_right (by simpa [hpc, stageOf, Stage.Replacing] using hk)
  rcases Nat.lt_trichotomy k 5 with hcopying | rfl | hcopied
  · right
    interval_cases k <;>
      simp [startTransferStep, hpc, Device.beginStores, TwiRequest.wordStores, stageOf, Stage.Replacing]
  · left
    simp [startTransferStep, hpc, Device.beginStores, TwiRequest.wordStores, commit, BitVec.le_def]
  · left
    have hold := old (by omega)
    rcases Nat.lt_or_ge k 12 with hstores | hdone
    · interval_cases k <;>
        simpa [startTransferStep, hpc, Device.beginStores, TwiRequest.wordStores, commit, device, Device.orCntr] using hold
    · obtain ⟨n, rfl⟩ := Nat.exists_eq_add_of_le' hdone
      simpa [startTransferStep, hpc, Device.beginStores, TwiRequest.wordStores] using hold

private theorem target_of_replacing {s : State} {b : Bus} (h : (stageOf s.pc b).Replacing) :
    Action.proceed.target s = some b := by
  cases hpc : s.pc with
  | outside => simp [hpc, stageOf, Stage.Replacing] at h
  | pushed base | tested base =>
    simp only [hpc, stageOf] at h
    split at h <;> exact absurd h id
  | beginning base req k =>
    simp only [hpc, stageOf] at h
    split at h
    · simpa [Action.target, hpc] using ‹_›
    · exact absurd h id

private theorem startTransferStep_inBounds (s : State) (b : Bus) (h : InBounds s b) :
    InBounds (startTransferStep s) b := by
  by_cases ht : Action.proceed.target s = some b
  · cases hpc : s.pc with
    | outside => simp [Action.target, hpc] at ht
    | pushed base =>
      have hi := h.resolve_right (by simp only [hpc, stageOf]; split <;> exact id)
      simpa [startTransferStep, hpc, InBounds] using .inl hi
    | tested base =>
      have hi := h.resolve_right (by simp only [hpc, stageOf]; split <;> exact id)
      simp only [startTransferStep, hpc]
      split <;> exact .inl hi
    | beginning base req k =>
      obtain rfl : busFor base = b := by simpa [Action.target, hpc] using ht
      exact beginning_inBounds s hpc h
  · -- The `begin` under way works on another bus.
    have hi := h.resolve_right fun hr => ht (target_of_replacing hr)
    obtain ⟨-, hs⟩ := step_frame s .proceed b ht
    exact .inl (hs.symm ▸ hi)

private theorem handleIsr_inBounds (s : State) (c b : Bus) (h : InBounds s b) : InBounds (handleIsr s c.base) b := by
  rcases h with h | h
  · left
    by_cases hc : c = b
    · subst hc
      have hd : (device s c.base).Bounded := by simpa [Device.Bounded, device] using h
      have hb : _ ≤ _ := Device.handleIsr_bounded hd
      simpa [handleIsr, commit] using hb
    · obtain ⟨-, hs⟩ := step_frame s (.isr c) b (by simpa [Action.target] using hc)
      exact hs.symm ▸ h
  · exact .inr h

theorem step_inBounds (s : State) (a : Action) (b : Bus) (h : InBounds s b) : InBounds (step s a) b := by
  have await (base : Word) (c : Coro) (request : TwiRequest) (result : Word) :
      InBounds (if s.pc = .outside then awaitSuspendPush s base c request result else s) b := by
    split
    · rename_i hout
      have hi := h.resolve_right (by simp [hout, stageOf, Stage.Replacing])
      exact .inl (by simpa [awaitSuspendPush] using hi)
    · exact h
  cases a with
  | coAwaitRead base c address regAddr dest result => exact await base c _ result
  | coAwaitWrite base c address regAddr src result => exact await base c _ result
  | proceed => exact startTransferStep_inBounds s b h
  | hardware base cntr stat data => exact h
  | isr c => exact handleIsr_inBounds s c b h

theorem run_inBounds (ram : Memory) (acts : List Action) (b : Bus) : InBounds (run ram acts) b :=
  run_invariant (fun s a => step_inBounds s a b) (.inl (Nat.le_refl 0)) acts

/-- Where the requests of a bus come from: each is one of the pushed, and the
buffer of each is accessed below its length. A bus that has served none holds a
request of no length, and one that is being copied is none. -/
structure View.Sourced (pushed : List TwiRequest) (v : View) : Prop where
  queue : ∀ r ∈ v.queue, r ∈ pushed
  stage : ∀ r k, v.stage = .beginning r k → r ∈ pushed
  request : ¬ v.stage.Copying → v.request ∈ pushed ∨ v.request.length = 0
  accesses : ∀ r k, .bufferRead r k ∈ v.history ∨ .bufferWritten r k ∈ v.history → r ∈ pushed ∧ k < r.length.toNat

variable {rejects : Prop} {allowed : Stage → Bool → TwiRequest → Prop} {v w : View}

theorem access_mem_finishEvents {req r : TwiRequest} {result : TwiResult} {k : Nat} :
    .bufferRead r k ∉ finishEvents req result ∧ .bufferWritten r k ∉ finishEvents req result := by
  cases hr : req.result <;> cases hh : req.handle <;> simp [finishEvents, hr, hh]

/-- New events, with what they access. -/
theorem View.Sourced.extend (h : v.Sourced (pushedOf v.history)) {u : List Event}
    (hu : ∀ r k, .bufferRead r k ∈ u ∨ .bufferWritten r k ∈ u → r ∈ pushedOf v.history ∧ k < r.length.toNat) :
    { v with history := v.history ++ u }.Sourced (pushedOf (v.history ++ u)) := by
  have hsub : pushedOf v.history ⊆ pushedOf (v.history ++ u) := by simp
  refine ⟨fun r hr => hsub (h.queue r hr), fun r k hs => hsub (h.stage r k hs),
    fun hc => (h.request hc).imp_left (hsub ·), ?_⟩
  intro r k ha
  have hold : r ∈ pushedOf v.history ∧ k < r.length.toNat := by
    rw [List.mem_append, List.mem_append] at ha
    rcases ha with (ha | ha) | (ha | ha)
    · exact h.accesses r k (.inl ha)
    · exact hu r k (.inl ha)
    · exact h.accesses r k (.inr ha)
    · exact hu r k (.inr ha)
  exact ⟨hsub hold.1, hold.2⟩

theorem ViewStep.sourced (hs : ViewStep rejects allowed v w) (whole : ∀ g a r, allowed g a r → ¬ g.Copying)
    (hset : v.Settled) (h : v.Sourced (pushedOf v.history)) : w.Sourced (pushedOf w.history) := by
  cases hs with
  | rejected ok c out full =>
    have he := h.extend (u := [.suspended c]) (by simp)
    exact { he with stage := by simp, request := fun _ => he.request (by simp [out, Stage.Copying]) }
  | accepted c req out room hh hr ht =>
    have he := h.extend (u := [.suspended c, .pushed req]) (by simp)
    refine { he with queue := ?_, stage := by simp, request := fun _ => he.request (by simp [out, Stage.Copying]) }
    intro r hr
    rcases List.mem_append.mp hr with hr | hr
    · exact he.queue r hr
    · simp_all
  | foundActive hs ha | foundIdle hs ha | foundEmpty hs hq =>
    exact { h with stage := by simp, request := fun _ => h.request (by simp [hs, Stage.Copying]) }
  | popped hs hq =>
    have hqueue := h.queue
    rw [hq, List.forall_mem_cons] at hqueue
    refine { h with queue := hqueue.2, stage := ?_, request := fun _ => h.request (by simp [hs, Stage.Copying]) }
    rintro r k ⟨⟩
    exact hqueue.1
  | wordStored hs hw =>
    have hr := h.stage _ _ hs
    have hk := TwiRequest.wordStores_lt hw
    refine { h with stage := ?_, request := fun hc => .inl ?_ }
    · rintro r k ⟨⟩
      exact hr
    · -- Not copying any more: the word was the last.
      rw [View.Settled, hs] at hset
      have hcopied := ((hset.1 (by omega)).2.2.word hw).all (by simp [Stage.Copying] at hc; omega)
      exact hcopied ▸ hr
  | fieldStored hs h5 h9 =>
    refine { h with stage := ?_, request := fun _ => h.request (by simp only [hs, Stage.Copying]; omega) }
    rintro r k ⟨⟩
    exact h.stage _ _ hs
  | activated hs =>
    rename_i req
    have he := h.extend (u := [.begun req]) (by simp)
    refine { he with stage := ?_, request := fun _ => he.request (by simp [hs, Stage.Copying]) }
    rintro r k ⟨⟩
    exact he.stage _ _ hs
  | begunDone hs h11 =>
    exact { h with stage := by simp, request := fun _ => h.request (by simp only [hs, Stage.Copying]; omega) }
  | accessed ok k hk he =>
    have hr : v.request ∈ pushedOf v.history := by
      refine (h.request (whole _ _ _ ok)).resolve_right fun h0 => ?_
      simp [h0] at hk
    refine h.extend ?_
    intro r j ha
    rcases he with rfl | rfl <;> simp_all
  | finishedLast ok result hr hq =>
    have he := h.extend (u := finishEvents v.request result) (by simp [access_mem_finishEvents])
    exact { he with }
  | finishedNext ok result hr hq =>
    rename_i next rest
    have he := h.extend (u := finishEvents v.request result ++ [Event.begun next]) (by simp [access_mem_finishEvents])
    have hqueue := he.queue
    simp only [hq, List.forall_mem_cons] at hqueue
    rw [List.append_assoc]
    exact { he with queue := hqueue.2, request := fun _ => .inl hqueue.1 }

/-- An interrupt does not come while the request of its bus is being copied. -/
def CopyKept (s : State) : Action → Prop
  | .isr b => ¬ (stageOf s.pc b).Copying
  | _ => True

theorem run_sourced {ram : Memory} {acts : List Action} (h : Along step CopyKept (init ram) acts) (b : Bus) :
    (viewOf (run ram acts) b).Sourced (pushedOf ((run ram acts).history b)) := by
  let Inv (v : View) : Prop := v.Settled ∧ v.Sourced (pushedOf v.history)
  let Kept (g : Stage) (_ : Bool) (_ : TwiRequest) : Prop := ¬ g.Copying
  have hinit : Inv (viewOf (init ram) b) := by
    refine ⟨Or.inr rfl, ?_⟩
    constructor <;> simp [viewOf, init, stageOf, default]
  have simulates (s : State) (a : Action) (ha : CopyKept s a) :
      ReflTransGen (ViewStep True Kept) (viewOf s b) (viewOf (step s a) b) := by
    refine step_view s a b (fun _ _ => trivial) ?_
    rintro rfl _
    exact ha
  have keep (v w : View) (hs : ViewStep True Kept v w) (hv : Inv v) : Inv w :=
    ⟨hs.settled hv.1, hs.sourced (fun _ _ _ => id) hv.1 hv.2⟩
  exact (run_view_invariant simulates keep hinit h).2

/-- The span that an await is given. -/
def Action.span : Action → Option Span
  | .coAwaitRead _ _ _ _ span _ | .coAwaitWrite _ _ _ _ span _ => some span
  | _ => none

/-- The request was queued on the bus by an await of the run with this span. -/
def PassedFor (ram : Memory) (acts : List Action) (b : Bus) (req : TwiRequest) (span : Span) : Prop :=
  ∃ before a after h, acts = before ++ a :: after ∧ a.span = some span ∧
    (run ram (before ++ [a])).history b = (run ram before).history b ++ [Event.suspended h, .pushed req]

private theorem awaitSuspendPush_pushed (s : State) (base : Word) (h : Coro) (request : TwiRequest) (result : Word)
    (b : Bus) : pushedOf ((awaitSuspendPush s base h request result).history b) = pushedOf (s.history b) ∨
      ∃ req : TwiRequest, (awaitSuspendPush s base h request result).history b =
        s.history b ++ [Event.suspended h, .pushed req] ∧ req.buffer = request.buffer ∧ req.length = request.length := by
  by_cases hb : busFor base = b
  · subst hb
    simp only [awaitSuspendPush, Function.update_self]
    split
    · exact .inr ⟨_, rfl, rfl, rfl⟩
    · left
      simp
  · left
    simp [awaitSuspendPush, Ne.symm hb]

private theorem startTransferStep_pushed (s : State) (b : Bus) :
    pushedOf ((startTransferStep s).history b) = pushedOf (s.history b) := by
  cases hpc : s.pc with
  | outside => simp [startTransferStep, hpc]
  | pushed base => simp [startTransferStep, hpc]
  | tested base =>
    simp only [startTransferStep, hpc]
    split <;> rfl
  | beginning base req k =>
    simp only [startTransferStep, hpc]
    split
    · rename_i store hstore
      have hp := Device.beginStores_pushed (List.mem_of_getElem? hstore) (device s base)
      by_cases hb : busFor base = b
      · subst hb
        simpa [commit, device] using hp
      · simp [commit, Ne.symm hb]
    · rfl

/-- Only an await pushes, and its request has the buffer of its span and at
most the length. -/
theorem step_pushed (s : State) (a : Action) (b : Bus) :
    pushedOf ((step s a).history b) = pushedOf (s.history b) ∨
      ∃ h span req, a.span = some span ∧ (step s a).history b = s.history b ++ [Event.suspended h, .pushed req] ∧
        req.buffer = span.data ∧ req.length = span.size.setWidth 16 := by
  cases a with
  | coAwaitRead base h address regAddr dest result =>
    simp only [step]
    split
    · refine (awaitSuspendPush_pushed s base h (asyncRead address regAddr dest) result b).imp_right ?_
      rintro ⟨req, hreq⟩
      exact ⟨h, dest, req, rfl, hreq⟩
    · exact .inl rfl
  | coAwaitWrite base h address regAddr src result =>
    simp only [step]
    split
    · refine (awaitSuspendPush_pushed s base h (asyncWrite address regAddr src) result b).imp_right ?_
      rintro ⟨req, hreq⟩
      exact ⟨h, src, req, rfl, hreq⟩
    · exact .inl rfl
  | proceed => exact .inl (startTransferStep_pushed s b)
  | hardware base cntr stat data => exact .inl rfl
  | isr c =>
    left
    by_cases hc : c = b
    · subst hc
      simpa [step, handleIsr, commit, device] using (device s c.base).handleIsr_pushed
    · simp [step, handleIsr, commit, Ne.symm hc]

theorem run_concat (ram : Memory) (acts : List Action) (a : Action) :
    run ram (acts ++ [a]) = step (run ram acts) a := run_append step (init ram) acts [a]

namespace PassedFor
variable {ram : Memory} {acts : List Action} {b : Bus} {req : TwiRequest} {span : Span}

theorem concat (h : PassedFor ram acts b req span) (a : Action) : PassedFor ram (acts ++ [a]) b req span := by
  obtain ⟨before, d, after, c, rfl, hp⟩ := h
  exact ⟨before, d, after ++ [a], c, by simp, hp⟩

/-- The length is the size of the span modulo 2^16. -/
theorem request_eq (h : PassedFor ram acts b req span) :
    req.buffer = span.data ∧ req.length = span.size.setWidth 16 := by
  obtain ⟨before, a, after, c, -, hspan, ht⟩ := h
  rw [run_concat] at ht
  rcases step_pushed (run ram before) a b with hs | ⟨c', span', req', hspan', ht', heq⟩
  · simp [ht] at hs
  · rw [ht'] at ht
    obtain rfl : span' = span := by simpa [hspan'] using hspan
    obtain ⟨-, rfl⟩ : c' = c ∧ req' = req := by simpa using ht
    exact heq

theorem length_le (h : PassedFor ram acts b req span) : req.length.toNat ≤ span.size.toNat := by
  rw [h.request_eq.2, BitVec.toNat_setWidth]
  exact Nat.mod_le _ _

end PassedFor

/-- Every pushed request is that of an await. -/
theorem exists_passedFor (ram : Memory) (acts : List Action) (b : Bus) {req : TwiRequest}
    (h : req ∈ pushedOf ((run ram acts).history b)) : ∃ span, PassedFor ram acts b req span := by
  induction acts using List.reverseRecOn with
  | nil => simp [init] at h
  | append_singleton acts a ih =>
    have old (hold : req ∈ pushedOf ((run ram acts).history b)) : ∃ span, PassedFor ram (acts ++ [a]) b req span := by
      obtain ⟨span, hp⟩ := ih hold
      exact ⟨span, hp.concat a⟩
    rw [run_concat] at h
    rcases step_pushed (run ram acts) a b with hs | ⟨c, span, r, hspan, ht, -⟩
    · exact old (hs ▸ h)
    · have hr : req ∈ pushedOf ((run ram acts).history b) ∨ req = r := by simpa [ht] using h
      rcases hr with hr | rfl
      · exact old hr
      · exact ⟨span, acts, a, [], c, rfl, hspan, by rw [run_concat, ht]⟩

/-- With interrupts between any two accesses but those of the copy, and any
register contents, the handler reads and writes a buffer below the size of the
span that its request was made with. -/
theorem run_accesses {ram : Memory} {acts : List Action} (h : Along step CopyKept (init ram) acts) (b : Bus)
    {req : TwiRequest} {k : Nat}
    (ha : .bufferRead req k ∈ (run ram acts).history b ∨ .bufferWritten req k ∈ (run ram acts).history b) :
    (∃ span, PassedFor ram acts b req span) ∧
      ∀ span, PassedFor ram acts b req span → req.buffer = span.data ∧ k < span.size.toNat := by
  obtain ⟨hp, hk⟩ := (run_sourced h b).accesses req k ha
  refine ⟨exists_passedFor ram acts b hp, fun span hspan => ⟨hspan.request_eq.1, ?_⟩⟩
  exact hk.trans_le hspan.length_le

/-- Inside the copy the buffer is the new one and the length the old: byte 1 of
one byte is stored to. -/
example :
    let s := run (fun _ => 0) [.coAwaitRead sTwi0Base 1 0x68 0x10 ⟨0x1000, 3⟩ 0x2000,
      .proceed, .proceed, .proceed, .proceed, .proceed, .proceed, .proceed, .proceed, .proceed, .proceed, .proceed,
      .proceed, .proceed, .proceed, .hardware sTwi0Base cntrIntFlag statDataRxAck 0, .isr .twi0,
      .hardware sTwi0Base cntrIntFlag statBusError 0, .isr .twi0,
      .coAwaitRead sTwi0Base 2 0x68 0x11 ⟨0x3000, 1⟩ 0x2004, .proceed, .proceed, .proceed, .proceed,
      .hardware sTwi0Base cntrIntFlag statDataRxAck 0x5A, .isr .twi0]
    s.ram 0x3001 = 0x5A := by decide

/-- The calls of the driver. -/
inductive Call where
  | asyncRead (base : Word) (h : Coro) (address regAddr : Byte) (dest : Span) (result : Word)
  | asyncWrite (base : Word) (h : Coro) (address regAddr : Byte) (src : Span) (result : Word)
  | handleIsr (b : Bus) (cntr stat data : Word)
  deriving DecidableEq, Repr

/-- The steps of a call. An await runs `start_transfer` to its end, and the
handler finds the registers as the controller has set them. -/
def Call.actions : Call → List Action
  | .asyncRead base h address regAddr dest result =>
    .coAwaitRead base h address regAddr dest result :: List.replicate 14 .proceed
  | .asyncWrite base h address regAddr src result =>
    .coAwaitWrite base h address regAddr src result :: List.replicate 14 .proceed
  | .handleIsr b cntr stat data => [.hardware b.base cntr stat data, .isr b]

abbrev actionsOf (calls : List Call) : List Action := calls.flatMap Call.actions

/-- The most steps that are left of `await_suspend`. -/
def Pc.left : Pc → Nat
  | .outside => 0
  | .pushed _ => 14
  | .tested _ => 13
  | .beginning _ _ k => 1 + (11 - k)

theorem startTransferStep_left {s : State} {n : Nat} (h : s.pc.left ≤ n+1) : (startTransferStep s).pc.left ≤ n := by
  cases hpc : s.pc with
  | outside => simp [startTransferStep, hpc, Pc.left]
  | pushed base =>
    rw [hpc, Pc.left] at h
    simp only [startTransferStep, hpc]
    split <;> simp only [Pc.left] <;> omega
  | tested base =>
    rw [hpc, Pc.left] at h
    simp only [startTransferStep, hpc]
    split <;> simp only [Pc.left] <;> omega
  | beginning base req k =>
    rw [hpc, Pc.left] at h
    simp only [startTransferStep, hpc]
    split
    · rw [show (Device.beginStores req).length = 12 from rfl]
      simp only
      split <;> simp only [Pc.left] <;> omega
    · exact Nat.zero_le n

theorem run_proceeds_outside {s : State} {n : Nat} (h : s.pc.left ≤ n) :
    (History.run step s (List.replicate n .proceed)).pc = .outside := by
  induction n generalizing s with
  | zero =>
    cases hpc : s.pc with
    | outside => exact hpc
    | pushed | tested => simp [hpc, Pc.left] at h
    | beginning => simp [hpc, Pc.left] at h
  | succ n ih => exact ih (startTransferStep_left h)

theorem proceeds_copyKept (s : State) (n : Nat) : Along step CopyKept s (List.replicate n .proceed) := by
  induction n generalizing s with
  | zero => trivial
  | succ n ih => exact ⟨trivial, ih _⟩

/-- A call ends outside `await_suspend`, and no interrupt comes during it. -/
theorem call_copyKept {s : State} (hpc : s.pc = .outside) (call : Call) :
    Along step CopyKept s call.actions ∧ (History.run step s call.actions).pc = .outside := by
  have await (base : Word) (h : Coro) (request : TwiRequest) (result : Word) :
      (awaitSuspendPush s base h request result).pc.left ≤ 14 := Nat.le_refl 14
  cases call with
  | asyncRead base h address regAddr dest result =>
    refine ⟨⟨trivial, proceeds_copyKept _ 14⟩, run_proceeds_outside ?_⟩
    simpa only [step, hpc, if_true] using await base h _ result
  | asyncWrite base h address regAddr src result =>
    refine ⟨⟨trivial, proceeds_copyKept _ 14⟩, run_proceeds_outside ?_⟩
    simpa only [step, hpc, if_true] using await base h _ result
  | handleIsr b cntr stat data =>
    refine ⟨⟨trivial, ?_, trivial⟩, hpc⟩
    simp [CopyKept, step, hpc, stageOf, Stage.Copying]

theorem calls_copyKept {s : State} (hpc : s.pc = .outside) (calls : List Call) :
    Along step CopyKept s (actionsOf calls) ∧ (History.run step s (actionsOf calls)).pc = .outside := by
  induction calls generalizing s with
  | nil => exact ⟨trivial, hpc⟩
  | cons call calls ih =>
    obtain ⟨hcall, hout⟩ := call_copyKept hpc call
    obtain ⟨hcalls, hend⟩ := ih hout
    rw [actionsOf, List.flatMap_cons, along_append, run_append]
    exact ⟨⟨hcall, hcalls⟩, hend⟩

/-- After any sequence of reads, writes and handler calls, with any register
contents, the index of each bus is at most the length of its request, and the
handler has read and written buffers only below the size of the span that the
request was made with. -/
theorem accesses_within_span (ram : Memory) (calls : List Call) (b : Bus) :
    let s := run ram (actionsOf calls)
    (s.state b).index ≤ (s.state b).request.length ∧
      ∀ req k, .bufferRead req k ∈ s.history b ∨ .bufferWritten req k ∈ s.history b →
        (∃ span, PassedFor ram (actionsOf calls) b req span) ∧
          ∀ span, PassedFor ram (actionsOf calls) b req span → req.buffer = span.data ∧ k < span.size.toNat := by
  obtain ⟨hkept, hout⟩ := calls_copyKept (s := init ram) rfl calls
  refine ⟨(run_inBounds ram (actionsOf calls) b).resolve_right ?_, fun req k ha => run_accesses hkept b ha⟩
  rw [run, hout]
  exact id

end IoProcessor.Hal.Twi
