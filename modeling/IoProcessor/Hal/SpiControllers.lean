import IoProcessor.Hal.SpiSerial
import IoProcessor.Hal.TrapHandler

/-! Which controller an SPI request runs on. The driver has two sets of static
members and the memory map three controllers, whose interrupts come on two
lines. -/
namespace IoProcessor.Hal.SpiDma
open Library MemoryMap History

def Event.request : Event → Option TransferRequest
  | .suspended _ _ => none
  | .pushed _ req | .started _ req _ | .completed _ req | .stored _ req _ | .posted _ req _ => some req

/-- The request of the event names this controller. -/
def Event.Names (base : Word) (e : Event) : Prop := ∀ req, e.request = some req → req.spiBase = base

/-- Every request of a bus names its controller. -/
structure Bus.Own (base : Word) (b : Bus) : Prop where
  queue : ∀ req ∈ b.queue, req.spiBase = base
  active : b.busy = true → b.active.spiBase = base
  history : ∀ e ∈ b.history, e.Names base

namespace Bus.Own
variable {base : Word} {b : Bus} {req : TransferRequest} {rest : List TransferRequest}

theorem record (h : b.Own base) {es : List Event} (he : ∀ e ∈ es, e.Names base) :
    Bus.Own base { b with history := b.history ++ es } :=
  { h with history := List.forall_mem_append.mpr ⟨h.history, he⟩ }

theorem post (h : b.Own base) (hr : req.spiBase = base) : (b.post base req).Own base := by
  unfold Bus.post
  cases req.handle with
  | none => exact h
  | some c => exact h.record (by simpa [Event.Names, Event.request] using hr)

theorem launch (h : b.Own base) (ram : Memory) (hq : b.queue = req :: rest) : (b.launch base ram req rest).Own base := by
  have hreq : req.spiBase = base := h.queue req (by simp [hq])
  refine ⟨fun r hr => h.queue r (hq ▸ List.mem_cons_of_mem _ hr), fun _ => hreq, ?_⟩
  refine List.forall_mem_append.mpr ⟨h.history, ?_⟩
  simpa [Event.Names, Event.request] using hreq

theorem receive (h : b.Own base) (ha : b.active.spiBase = base) : (b.receive base).Own base := by
  refine ⟨h.queue, h.active, List.forall_mem_append.mpr ⟨h.history, ?_⟩⟩
  simpa [Event.Names, Event.request] using ha

end Bus.Own

theorem BusStep.own {base : Word} {b c : Bus} (hs : BusStep base b c) (h : b.Serial) (ho : b.Own base) : c.Own base := by
  cases hs with
  | rejected c full =>
    have he : ∀ e ∈ [Event.suspended base c], e.Names base := by simp [Event.Names, Event.request]
    exact { ho.record he with }
  | accepted c tx rx room =>
    have he : ∀ e ∈ [Event.suspended base c, .pushed base ⟨base, some c, tx, rx⟩], e.Names base := by
      simp [Event.Names, Event.request]
    refine { ho.record he with queue := ?_ }
    rw [List.forall_mem_append, List.forall_mem_singleton]
    exact ⟨ho.queue, rfl⟩
  | leftWaiting hw => exact { ho with }
  | startedIdle ram idle hq => exact { ho.launch ram hq with }
  | exchanged bytes hw running hl =>
    have hb : b.busy = true := by
      by_contra hb
      rw [h.wire, if_neg hb] at hw
      cases hw
    rw [h.wire, if_pos hb] at hw
    obtain rfl := Option.some.inj hw
    exact { ho.record (by simpa [Event.Names, Event.request] using ho.active hb) with }
  | servedLast tc hq =>
    have ha := ho.active (h.busy_of_tc tc)
    refine Bus.Own.post ?_ ha
    exact { ho.receive ha with active := fun hb => absurd hb (by simp) }
  | servedNext ram tc hq =>
    have ha := ho.active (h.busy_of_tc tc)
    exact ((ho.receive ha).launch ram hq).post ha

/-- Only the two controllers with members of their own see anything happen. -/
structure Bases (s : State) : Prop where
  trace : ∀ e ∈ s.trace, ∃ i : Instance, e.base = i.base
  wire : ∀ base, s.wire base ≠ none → ∃ i : Instance, base = i.base

namespace Bases
variable {s t : State}

theorem extend (h : Bases s) (i : Instance) {es : List Event} (ht : t.trace = s.trace ++ es)
    (he : ∀ e ∈ es, e.base = i.base) (hw : ∀ base ≠ i.base, t.wire base = s.wire base) : Bases t := by
  refine ⟨?_, ?_⟩
  · rw [ht, List.forall_mem_append]
    exact ⟨h.trace, fun e hm => ⟨i, he e hm⟩⟩
  · intro base hb
    by_cases hi : base = i.base
    · exact ⟨i, hi⟩
    · exact h.wire base (hw base hi ▸ hb)

theorem launch (h : Bases s) (i : Instance) (req : TransferRequest) : Bases (launch s i.base req) := by
  refine h.extend i rfl (by simp [Event.base]) ?_
  intro base hb
  exact Function.update_of_ne hb _ _

theorem receive (h : Bases s) (i : Instance) : Bases (receive s i.base) := by
  refine h.extend i rfl (by simp [Event.base]) ?_
  intro base hb
  simp only [SpiDma.receive]
  split
  · exact Function.update_of_ne hb _ _
  · rfl

theorem post (h : Bases s) (i : Instance) (req : TransferRequest) : Bases (post s i.base req) := by
  unfold SpiDma.post
  cases req.handle with
  | none => exact h
  | some c => exact h.extend i rfl (by simp [Event.base]) fun _ _ => rfl

theorem pop (h : Bases s) {base : Word} {req : TransferRequest} (hp : popTransferRequest s base = some (req, t)) :
    Bases t := by
  obtain ⟨popped, -, he⟩ := Option.map_eq_some_iff.mp hp
  obtain rfl := (Prod.mk.inj he).2
  exact ⟨h.trace, h.wire⟩

theorem tryStart (h : Bases s) (i : Instance) : Bases (tryStartNextTransfer s i.base) := by
  unfold tryStartNextTransfer
  split
  · exact h
  · cases hp : popTransferRequest s i.base with
    | none => exact h
    | some popped => exact (h.pop hp).launch i popped.1

theorem complete (h : Bases s) (i : Instance) : Bases (completeTransferFromIsr s i.base) := by
  unfold completeTransferFromIsr startNextOrIdle
  refine post ?_ i _
  cases hp : popTransferRequest (SpiDma.receive s i.base) i.base with
  | none => exact ⟨(h.receive i).trace, (h.receive i).wire⟩
  | some popped => exact ((h.receive i).pop hp).launch i popped.1

theorem step (h : Bases s) (ho : OnBus s) {a : Action} (ha : OwnInterrupts s a) : Bases (step s a) := by
  cases a with
  | coAwait base c tx rx =>
    obtain ⟨i, rfl⟩ : ∃ i : Instance, base = i.base := ha.elim (fun h => ⟨.spi0, h⟩) fun h => ⟨.spi1, h⟩
    simp only [SpiDma.step]
    split
    · refine h.extend i rfl ?_ fun _ _ => rfl
      split <;> simp [Event.base]
    · exact h
  | start =>
    cases hs : s.suspending with
    | none => simpa [SpiDma.step, hs] using h
    | some base =>
      obtain ⟨i, rfl⟩ := ho base hs
      simp only [SpiDma.step, hs]
      exact ⟨(h.tryStart i).trace, (h.tryStart i).wire⟩
  | exchange base bytes =>
    simp only [SpiDma.step]
    split
    · rename_i req hw
      obtain ⟨i, rfl⟩ := h.wire base (by simp [hw])
      split
      · exact h.extend i rfl (by simp [Event.base]) fun _ _ => rfl
      · exact h
    · exact h
  | isr i =>
    cases i with
    | spi0 => exact h.complete .spi0
    | spi1 => exact h.complete .spi1

end Bases

/-- Every request runs on the controller that it names: all that is done for it
is done there, it waits for requests of that controller only, and is posted for
a transfer that the controller has completed. -/
structure OwnController (s : State) : Prop where
  events : ∀ e ∈ s.trace, ∀ req, e.request = some req → e.base = req.spiBase
  queued : ∀ i, ∀ req ∈ (s.pending i).toList, req.spiBase = i.base
  active : ∀ i, s.busy i = true → (s.active i).spiBase = i.base
  posted : ∀ base, postedOf (historyOf base s.trace) <+: completedOf (historyOf base s.trace)

structure OwnController.Inv (s : State) : Prop extends Serialised s where
  bases : Bases s
  own : ∀ i, (busOf s i).Own i.base

theorem OwnController.Inv.init (ram : Memory) : Inv (init ram) where
  toSerialised := serialised_init ram
  bases := ⟨by simp [SpiDma.init], by simp [SpiDma.init]⟩
  own i := ⟨by simp [busOf, SpiDma.init], by simp [busOf, SpiDma.init], by simp [busOf, SpiDma.init, historyOf]⟩

theorem OwnController.Inv.step {s : State} (h : Inv s) {a : Action} (ha : OwnInterrupts s a) : Inv (step s a) := by
  refine ⟨h.toSerialised.step ha, h.bases.step h.onBus ha, ?_⟩
  intro i
  rcases step_bus h.onBus ha i with he | he
  · rw [he]
    exact h.own i
  · exact he.own (h.serial i) (h.own i)

theorem OwnController.Inv.ownController {s : State} (h : Inv s) : OwnController s where
  events e he req hreq := by
    obtain ⟨i, hi⟩ := h.bases.trace e he
    have hmem : e ∈ (busOf s i).history := List.mem_filter.mpr ⟨he, decide_eq_true hi⟩
    rw [hi, (h.own i).history e hmem req hreq]
  queued i := (h.own i).queue
  active i := (h.own i).active
  posted base := by
    by_cases hb : ∃ i : Instance, base = i.base
    · obtain ⟨i, rfl⟩ := hb
      exact ⟨_, (h.serial i).completed.symm⟩
    · -- Nothing happens on other bases.
      have hnil : historyOf base s.trace = [] := by
        refine List.filter_eq_nil_iff.mpr fun e he heb => hb ?_
        obtain ⟨i, hi⟩ := h.bases.trace e he
        exact ⟨i, (of_decide_eq_true heb).symm.trans hi⟩
      rw [hnil]
      exact List.prefix_refl _

end IoProcessor.Hal.SpiDma

namespace IoProcessor.Hal.TrapHandler
open Library MemoryMap History SpiDma

/-- The two lines that go to the SPI driver, and what they do to it. -/
theorem dispatchExternal_spi (f : Firmware) (clicId : Word) :
    (dispatchExternal f clicId).spi =
      if clicId = ClicIrq.sSpi.number then handleSpi1Isr { f.spi with ram := f.ram }
      else if clicId = ClicIrq.gicGroup48_55.number then handleSpi0Isr { f.spi with ram := f.ram }
      else f.spi := by
  by_cases h1 : clicId = ClicIrq.sSpi.number
  · subst h1
    rfl
  · by_cases h0 : clicId = ClicIrq.gicGroup48_55.number
    · subst h0
      rfl
    · rw [if_neg h1, if_neg h0]
      have other {c : Prop} [Decidable c] {g g' : Firmware} (hg : g.spi = f.spi) (hg' : g'.spi = f.spi) :
          (if c then g else g').spi = f.spi := by
        split <;> assumption
      unfold dispatchExternal
      refine other rfl (other rfl (other rfl (other rfl (other rfl (other rfl (other rfl ?_))))))
      rw [if_neg h1, if_neg h0]
      exact other rfl rfl

/-- Awaits name one of the three controllers of the memory map. -/
def NamesController : Action → Prop
  | .spi (.coAwait base _ _ _) => base = spi0Base ∨ base = spi1Base ∨ base = sSpi0Base
  | _ => True

/-- No await names the third controller, and an interrupt is taken only while
the controller that its line is routed to reports transfer complete. -/
def ServedControllers (f : Firmware) : Action → Prop
  | .spi a => OwnInterrupts f.spi a
  | .external clicId =>
    (clicId = ClicIrq.sSpi.number → (f.spi.regs spi1Base).tc = true) ∧
      (clicId = ClicIrq.gicGroup48_55.number → (f.spi.regs spi0Base).tc = true)
  | .twi _ | .uart _ | .gpio _ | .msgbox _ | .trace _ => True

instance (f : Firmware) : (a : Action) → Decidable (ServedControllers f a)
  | .spi a => inferInstanceAs (Decidable (OwnInterrupts f.spi a))
  | .external _ => inferInstanceAs (Decidable (_ ∧ _))
  | .twi _ | .uart _ | .gpio _ | .msgbox _ | .trace _ => .isTrue trivial

theorem step_ownController {f : Firmware} (h : OwnController.Inv f.spi) {a : Action} (ha : ServedControllers f a) :
    OwnController.Inv (step f a).spi := by
  have hs : OwnController.Inv { f.spi with ram := f.ram } :=
    ⟨⟨h.onBus, h.serial⟩, ⟨h.bases.trace, h.bases.wire⟩, h.own⟩
  cases a with
  | spi a => exact hs.step ha
  | external clicId =>
    simp only [step, dispatchExternal_spi]
    split
    · rename_i h1
      exact hs.step (a := .isr .spi1) (ha.1 h1)
    · split
      · rename_i h0
        exact hs.step (a := .isr .spi0) (ha.2 h0)
      · exact h
  | twi a => exact h
  | uart a => exact h
  | gpio a => exact h
  | msgbox a => exact h
  | trace call => exact h

/-- Every request runs on its own controller, in every run that leaves the third
one alone and whose interrupts come from the controllers they are routed to. -/
theorem spi_requests_on_own_controller (ram : Memory) (acts : List Action)
    (h : Along step ServedControllers (init ram) acts) : OwnController (run ram acts).spi := by
  let Kept (f : Firmware) : Prop := OwnController.Inv f.spi
  have keep (f : Firmware) (a : Action) (hf : Kept f) (ha : ServedControllers f a) : Kept (step f a) :=
    step_ownController hf ha
  have hk : Kept (run ram acts) := run_invariant_along keep (.init ram) h
  exact hk.ownController

/-- A transfer on each of the first two controllers. -/
private def twoControllers : List Action :=
  [.spi (.coAwait spi0Base 1 ⟨0x07150000, 1⟩ ⟨0x07150010, 1⟩), .spi .start,
    .spi (.coAwait spi1Base 2 ⟨0x07150020, 1⟩ ⟨0x07150030, 1⟩), .spi .start,
    .spi (.exchange spi1Base [0xBB]), .external ClicIrq.sSpi.number,
    .spi (.exchange spi0Base [0xAA]), .external ClicIrq.gicGroup48_55.number]

theorem spi_requests_on_two_controllers :
    let f := run (fun _ => 0) twoControllers
    f.ram 0x07150010 = 0xAA ∧ f.ram 0x07150030 = 0xBB ∧ OwnController f.spi :=
  ⟨by decide, by decide, spi_requests_on_own_controller (fun _ => 0) twoControllers (by decide)⟩

/-- A transfer on the third controller, whose interrupt comes on its own line. -/
private def thirdController : List Action :=
  [.spi (.coAwait sSpi0Base 1 ⟨0x07150000, 1⟩ ⟨0x07150010, 1⟩), .spi .start,
    .spi (.exchange sSpi0Base [0xAA]), .external ClicIrq.sSpi.number]

/-- The byte that it received stays there, and one is read from SPI1. -/
theorem third_controller_read_from_spi1 :
    let f := run (fun _ => 0) thirdController
    (∀ a ∈ thirdController, NamesController a) ∧
      f.spi.trace.getLast? = some (.posted spi1Base ⟨sSpi0Base, some 1, ⟨0x07150000, 1⟩, ⟨0x07150010, 1⟩⟩ 1) ∧
      (f.spi.regs sSpi0Base).rxFifo = [⟨1, 0xAA⟩] ∧ f.ram 0x07150010 = 0 ∧ ¬ OwnController f.spi := by
  intro f
  have hnames : ∀ a ∈ thirdController, NamesController a := by simp [thirdController, NamesController]
  have hlast : f.spi.trace.getLast? =
      some (.posted spi1Base ⟨sSpi0Base, some 1, ⟨0x07150000, 1⟩, ⟨0x07150010, 1⟩⟩ 1) := by decide
  refine ⟨hnames, hlast, by decide, by decide, ?_⟩
  intro h
  have hbase := h.events _ (List.mem_of_getLast? hlast) _ rfl
  revert hbase
  decide

end IoProcessor.Hal.TrapHandler
