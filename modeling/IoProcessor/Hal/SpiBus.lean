import IoProcessor.Hal.SpiDma

/-! One SPI bus as a machine of its own, and what a step of the driver does to
each of the two: nothing, or one transition of that machine. -/
namespace IoProcessor.Hal.SpiDma
open Library MemoryMap History

/-- Awaits name one of the two serviced buses, and an interrupt is taken only
for a bus whose controller reports transfer complete. -/
def OwnInterrupts (s : State) : Action → Prop
  | .coAwait base _ _ _ => base = spi0Base ∨ base = spi1Base
  | .isr i => (s.regs i.base).tc = true
  | _ => True

instance (s : State) : (a : Action) → Decidable (OwnInterrupts s a)
  | .coAwait base _ _ _ => inferInstanceAs (Decidable (base = spi0Base ∨ base = spi1Base))
  | .isr i => inferInstanceAs (Decidable ((s.regs i.base).tc = true))
  | .start => .isTrue trivial
  | .exchange _ _ => .isTrue trivial

structure Bus where
  queue : List TransferRequest
  active : TransferRequest
  busy : Bool
  regs : Controller
  wire : Option TransferRequest
  suspending : Bool
  history : List Event

def busOf (s : State) (i : Instance) : Bus where
  queue := (s.pending i).toList
  active := s.active i
  busy := s.busy i
  regs := s.regs i.base
  wire := s.wire i.base
  suspending := s.suspending = some i.base
  history := historyOf i.base s.trace

namespace Bus

def launch (b : Bus) (base : Word) (ram : Memory) (req : TransferRequest) (rest : List TransferRequest) : Bus :=
  { b with
    queue := rest
    busy := true
    active := req
    regs := b.regs.startTransfer ram req.txData req.rxData.size
    wire := some req
    history := b.history ++ [.started base req b.regs.rxFifo] }

def receive (b : Bus) (base : Word) : Bus :=
  let drained := (b.regs.writeIsr tcFlag).drain b.active.rxData.size.toNat
  { b with
    regs := drained.2
    wire := none
    history := b.history ++ [.stored base b.active drained.1] }

def post (b : Bus) (base : Word) (req : TransferRequest) : Bus :=
  match req.handle with
  | some handle => { b with history := b.history ++ [.posted base req handle] }
  | none => b

end Bus

/-- Everything that can happen on one bus, with the guards of the code. -/
inductive BusStep (base : Word) : Bus → Bus → Prop where
  | rejected {b : Bus} (c : Coro) (full : b.queue.length = 8) :
      BusStep base b { b with suspending := true, history := b.history ++ [.suspended base c] }
  | accepted {b : Bus} (c : Coro) (tx rx : Span) (room : b.queue.length < 8) :
      BusStep base b
        { b with
          queue := b.queue ++ [⟨base, some c, tx, rx⟩]
          suspending := true
          history := b.history ++ [.suspended base c, .pushed base ⟨base, some c, tx, rx⟩] }
  | leftWaiting {b : Bus} (h : b.busy = true ∨ b.queue = []) :
      BusStep base b { b with suspending := false }
  | startedIdle {b : Bus} (ram : Memory) {req : TransferRequest} {rest : List TransferRequest}
      (idle : b.busy = false) (hq : b.queue = req :: rest) :
      BusStep base b { b.launch base ram req rest with suspending := false }
  | exchanged {b : Bus} {req : TransferRequest} (bytes : List Byte) (hw : b.wire = some req)
      (running : b.regs.tc = false) (hl : bytes.length = b.regs.mbc.toNat) :
      BusStep base b
        { b with
          regs := b.regs.finishExchange bytes
          history := b.history ++ [.completed base req] }
  | servedLast {b : Bus} (tc : b.regs.tc = true) (hq : b.queue = []) :
      BusStep base b ({ b.receive base with busy := false, active := default }.post base b.active)
  | servedNext {b : Bus} (ram : Memory) {req : TransferRequest} {rest : List TransferRequest}
      (tc : b.regs.tc = true) (hq : b.queue = req :: rest) :
      BusStep base b (((b.receive base).launch base ram req rest).post base b.active)

/-- An `await_suspend` in progress is on one of the two buses. -/
def OnBus (s : State) : Prop := ∀ base, s.suspending = some base → ∃ i : Instance, base = i.base

theorem completeTransferFromIsr_suspending (s : State) (base : Word) :
    (completeTransferFromIsr s base).suspending = s.suspending := by
  unfold completeTransferFromIsr startNextOrIdle popTransferRequest post
  cases ((receive s base).pending (instanceFor base)).pop <;>
    cases (s.active (instanceFor base)).handle <;> rfl

private theorem base_ne {i j : Instance} (h : j ≠ i) : i.base ≠ j.base :=
  fun hb => h (Instance.base_injective hb).symm

private theorem busOf_launch (s : State) (i : Instance) (req : TransferRequest) :
    busOf (launch s i.base req) i = (busOf s i).launch i.base s.ram req (s.pending i).toList := by
  simp [busOf, launch, Bus.launch, historyOf, Event.base]

private theorem busOf_receive (s : State) (i : Instance) (h : (s.regs i.base).tc = true) :
    busOf (receive s i.base) i = (busOf s i).receive i.base := by
  simp [busOf, receive, Bus.receive, historyOf, Event.base, h]

private theorem busOf_post (s : State) (i : Instance) (req : TransferRequest) :
    busOf (post s i.base req) i = (busOf s i).post i.base req := by
  cases hh : req.handle <;> simp [busOf, post, Bus.post, historyOf, Event.base, hh]

private theorem busOf_other (s : State) {i j : Instance} (h : j ≠ i) :
    (∀ req, busOf (launch s i.base req) j = busOf s j) ∧ busOf (receive s i.base) j = busOf s j ∧
      ∀ req, busOf (post s i.base req) j = busOf s j := by
  have hb := base_ne h
  refine ⟨fun req => ?_, ?_, fun req => ?_⟩
  · simp [busOf, launch, historyOf, Event.base, h, hb, hb.symm]
  · cases ht : (s.regs i.base).tc <;> simp [busOf, receive, historyOf, Event.base, hb, hb.symm, ht]
  · cases hh : req.handle <;> simp [busOf, post, historyOf, Event.base, hb, hh]

/-- A pop of one bus's queue: empty, or its oldest request and nothing else. -/
private theorem pop_spec (s : State) (i : Instance) :
    (popTransferRequest s i.base = none ∧ (busOf s i).queue = []) ∨
    ∃ req t, popTransferRequest s i.base = some (req, t) ∧
      (s.pending i).toList = req :: (t.pending i).toList ∧
      busOf t i = { busOf s i with queue := (t.pending i).toList } ∧ ∀ j, j ≠ i → busOf t j = busOf s j := by
  rcases (s.pending i).pop_cases with ⟨hp, hq⟩ | ⟨req, q, hp, hq⟩
  · exact .inl ⟨by simp [popTransferRequest, hp], hq⟩
  · refine .inr ⟨req, { s with pending := Function.update s.pending i q }, ?_, by simpa using hq, ?_, ?_⟩
    · simp [popTransferRequest, hp]
    · simp [busOf]
    · intro j hj
      simp [busOf, hj]

private theorem push_bus (s : State) (i j : Instance) (hn : s.suspending = none) (c : Coro) (tx rx : Span) :
    busOf (awaitSuspendPush s i.base c tx rx) j = busOf s j ∨
      BusStep j.base (busOf s j) (busOf (awaitSuspendPush s i.base c tx rx) j) := by
  rcases (s.pending i).push_cases ⟨i.base, some c, tx, rx⟩ with ⟨hp, hl⟩ | ⟨q, hp, hq, hl⟩
  · by_cases hj : j = i
    · subst hj
      have hs : BusStep j.base (busOf s j) _ := .rejected c hl
      right
      simpa [busOf, awaitSuspendPush, queueTransferRequest, hp, historyOf, Event.base] using hs
    · left
      simp [busOf, awaitSuspendPush, queueTransferRequest, hp, historyOf, Event.base, hn, base_ne hj]
  · by_cases hj : j = i
    · subst hj
      have hs : BusStep j.base (busOf s j) _ := .accepted c tx rx hl
      right
      simpa [busOf, awaitSuspendPush, queueTransferRequest, hp, hq, historyOf, Event.base] using hs
    · left
      simp [busOf, awaitSuspendPush, queueTransferRequest, hp, historyOf, Event.base, hj, hn, base_ne hj]

private theorem busOf_resumed (s : State) (i : Instance) :
    busOf { s with suspending := none } i = { busOf s i with suspending := false } := by
  simp [busOf]

private theorem start_bus (s : State) (i j : Instance) (hs : s.suspending = some i.base) :
    busOf { tryStartNextTransfer s i.base with suspending := none } j = busOf s j ∨
      BusStep j.base (busOf s j) (busOf { tryStartNextTransfer s i.base with suspending := none } j) := by
  have hne (hj : j ≠ i) : { busOf s j with suspending := false } = busOf s j := by
    simp [busOf, hs, base_ne hj]
  rw [busOf_resumed]
  unfold tryStartNextTransfer
  split
  · rename_i hb
    rw [instanceFor_base] at hb
    by_cases hj : j = i
    · subst hj
      exact .inr (.leftWaiting (.inl hb))
    · exact .inl (hne hj)
  · rename_i hb
    rw [instanceFor_base, Bool.not_eq_true] at hb
    rcases pop_spec s i with ⟨hp, hq⟩ | ⟨req, t, hp, hq, ht, ho⟩
    · rw [hp]
      by_cases hj : j = i
      · subst hj
        exact .inr (.leftWaiting (.inr hq))
      · exact .inl (hne hj)
    · rw [hp]
      by_cases hj : j = i
      · subst hj
        right
        have hl := busOf_launch t j req
        rw [ht] at hl
        simp only [hl]
        exact .startedIdle t.ram hb hq
      · left
        simp only [(busOf_other t hj).1 req, ho j hj]
        exact hne hj

private theorem served_bus (s : State) (i j : Instance) (h : (s.regs i.base).tc = true) :
    busOf (completeTransferFromIsr s i.base) j = busOf s j ∨
      BusStep j.base (busOf s j) (busOf (completeTransferFromIsr s i.base) j) := by
  unfold completeTransferFromIsr startNextOrIdle
  rw [instanceFor_base]
  have hq' : ((receive s i.base).pending i).toList = (s.pending i).toList := rfl
  rcases pop_spec (receive s i.base) i with ⟨hp, hq⟩ | ⟨req, t, hp, hq, ht, ho⟩
  · rw [hp]
    by_cases hj : j = i
    · subst hj
      right
      rw [busOf_post]
      have hb : busOf { receive s j.base with
          busy := Function.update (receive s j.base).busy j false
          active := Function.update (receive s j.base).active j default } j =
          { (busOf s j).receive j.base with busy := false, active := default } := by
        rw [← busOf_receive s j h]
        simp [busOf]
      simp only [hb]
      exact .servedLast h hq
    · left
      rw [(busOf_other _ hj).2.2]
      rw [← (busOf_other s hj).2.1]
      simp [busOf, hj]
  · rw [hp]
    by_cases hj : j = i
    · subst hj
      right
      rw [busOf_post, busOf_launch, ht, busOf_receive s j h]
      exact .servedNext t.ram h (hq'.symm.trans hq)
    · left
      rw [(busOf_other _ hj).2.2]
      simp only [(busOf_other t hj).1 req, ho j hj, (busOf_other s hj).2.1]

private theorem exchange_bus (s : State) (base : Word) (bytes : List Byte) (i : Instance) :
    busOf (step s (.exchange base bytes)) i = busOf s i ∨
      BusStep i.base (busOf s i) (busOf (step s (.exchange base bytes)) i) := by
  cases hw : s.wire base with
  | none => left; simp [step, hw]
  | some req =>
    by_cases hg : (s.regs base).tc = false ∧ bytes.length = (s.regs base).mbc.toNat
    · by_cases hb : base = i.base
      · subst hb
        right
        have hs : BusStep i.base (busOf s i) _ := .exchanged bytes hw hg.1 hg.2
        simpa [step, hw, hg, busOf, historyOf, Event.base] using hs
      · left
        simp [step, hw, hg, busOf, historyOf, Event.base, hb, Ne.symm hb]
    · left
      simp only [step, hw, if_neg hg]

theorem onBus_step {s : State} {a : Action} (ho : OnBus s) (h : OwnInterrupts s a) : OnBus (step s a) := by
  have keep {t : State} (ht : t.suspending = s.suspending) : OnBus t := by
    intro base hb
    exact ho base (ht ▸ hb)
  cases a with
  | coAwait base c tx rx =>
    simp only [step]
    split
    · intro b hb
      obtain rfl : base = b := Option.some.inj hb
      exact h.elim (fun h => ⟨.spi0, h⟩) (fun h => ⟨.spi1, h⟩)
    · exact ho
  | start =>
    cases hs : s.suspending with
    | none => simpa [step, hs] using ho
    | some base => simp [step, hs, OnBus]
  | exchange base bytes =>
    apply keep
    simp only [step]
    repeat' split
    all_goals rfl
  | isr i =>
    apply keep
    cases i <;> exact completeTransferFromIsr_suspending s _

/-- What one step of the driver does to each bus. -/
theorem step_bus {s : State} {a : Action} (ho : OnBus s) (h : OwnInterrupts s a) (i : Instance) :
    busOf (step s a) i = busOf s i ∨ BusStep i.base (busOf s i) (busOf (step s a) i) := by
  cases a with
  | coAwait base c tx rx =>
    obtain ⟨j, rfl⟩ : ∃ j : Instance, base = j.base := h.elim (fun h => ⟨.spi0, h⟩) (fun h => ⟨.spi1, h⟩)
    simp only [step]
    split
    · rename_i hg
      exact push_bus s j i hg.1 c tx rx
    · exact .inl rfl
  | start =>
    cases hs : s.suspending with
    | none => left; simp [step, hs]
    | some base =>
      obtain ⟨j, rfl⟩ := ho base hs
      simp only [step, hs]
      exact start_bus s j i hs
  | exchange base bytes => exact exchange_bus s base bytes i
  | isr j =>
    cases j with
    | spi0 => exact served_bus s .spi0 i h
    | spi1 => exact served_bus s .spi1 i h

end IoProcessor.Hal.SpiDma
