import IoProcessor.Hal.TrapHandler

/-! CLIC line 92 carries the interrupts of all three main-domain SPI
controllers, and the handler it is routed to does not look at SPI0's status. -/
namespace IoProcessor.Hal.TrapHandler
open Library MemoryMap History Relation

/-- An SPI0 transfer is in flight and its controller does not report its end. -/
def MidTransfer (f : Firmware) : Prop :=
  f.spi.busy .spi0 = true ∧ (f.spi.regs spi0Base).tc = false

instance (f : Firmware) : Decidable (MidTransfer f) := inferInstanceAs (Decidable (_ ∧ _))

/-- The SPI0 transfer goes on as it was. -/
structure LeftAlone (f g : Firmware) : Prop where
  active : g.spi.active .spi0 = f.spi.active .spi0 ∧ g.spi.busy .spi0 = f.spi.busy .spi0
  buffer : g.ram.read (f.spi.active .spi0).rxData = f.ram.read (f.spi.active .spi0).rxData
  posted : SpiDma.handlesOf g.spi.trace = SpiDma.handlesOf f.spi.trace
  started : SpiDma.startedOf g.spi.trace = SpiDma.startedOf f.spi.trace

/-- What the flags of the SPI driver say holds in every run. -/
theorem run_consistent (ram : Memory) (acts : List Action) (i : SpiDma.Instance) :
    (SpiDma.slotOf (run ram acts).spi i).Consistent := by
  have spiStep (f : Firmware) (a : SpiDma.Action) (h : (SpiDma.slotOf f.spi i).Consistent) :
      (SpiDma.slotOf (step f (.spi a)).spi i).Consistent := by
    have keep (v w : SpiDma.Slot) (hs : SpiDma.SlotStep True v w) (hv : v.Consistent) : w.Consistent :=
      hs.consistent hv
    exact transitions_keep keep (SpiDma.step_slot _ i a fun _ _ _ _ _ _ => trivial) h
  let Inv (f : Firmware) : Prop := (SpiDma.slotOf f.spi i).Consistent
  have keep (f : Firmware) (a : Action) (h : Inv f) : Inv (step f a) := by
    cases a with
    | spi a => exact spiStep f a h
    | external clicId =>
      have hr := dispatchExternal_routed f clicId
      rw [step]
      generalize dispatchExternal f clicId = g at hr ⊢
      cases hr with
      | spi j => exact spiStep f (.isr j) h
      | _ => exact h
    | _ => exact h
  have hinit : Inv (init ram) := ⟨rfl, by simp [SpiDma.slotOf, init, SpiDma.init]⟩
  exact run_invariant keep hinit acts

/-- The handler posts the active request, whatever the status register says. -/
private theorem handlesOf_completeTransferFromIsr (s : SpiDma.State) (base : Word) :
    SpiDma.handlesOf (SpiDma.completeTransferFromIsr s base).trace =
      SpiDma.handlesOf s.trace ++ (s.active (SpiDma.instanceFor base)).handle.toList := by
  have hpost (t : SpiDma.State) (req : SpiDma.TransferRequest) :
      SpiDma.handlesOf (SpiDma.post t base req).trace = SpiDma.handlesOf t.trace ++ req.handle.toList := by
    cases hh : req.handle <;> simp [SpiDma.post, hh]
  have hnext : SpiDma.handlesOf (SpiDma.startNextOrIdle (SpiDma.receive s base) base).trace =
      SpiDma.handlesOf s.trace := by
    simp only [SpiDma.startNextOrIdle, SpiDma.popTransferRequest]
    cases ((SpiDma.receive s base).pending (SpiDma.instanceFor base)).pop <;>
      simp [SpiDma.launch, SpiDma.receive]
  rw [SpiDma.completeTransferFromIsr, hpost, hnext]

/-- An interrupt on the shared line in the middle of an SPI0 transfer never
leaves it alone, in any run: the coroutine that waits for it is posted. -/
theorem shared_line_ends_transfer (ram : Memory) (acts : List Action) (h : MidTransfer (run ram acts)) :
    let f := run ram acts
    let g := step f (.external ClicIrq.gicGroup48_55.number)
    ¬ LeftAlone f g ∧ ∃ c, (f.spi.active .spi0).handle = some c ∧
      SpiDma.handlesOf g.spi.trace = SpiDma.handlesOf f.spi.trace ++ [c] := by
  intro f g
  have hbusy : true = (f.spi.active .spi0).handle.isSome := h.1.symm.trans (run_consistent ram acts .spi0).busy
  obtain ⟨c, hc⟩ := Option.isSome_iff_exists.mp hbusy.symm
  have hposted : SpiDma.handlesOf g.spi.trace = SpiDma.handlesOf f.spi.trace ++ [c] := by
    have hg := handlesOf_completeTransferFromIsr { f.spi with ram := f.ram } spi0Base
    rw [show SpiDma.instanceFor spi0Base = .spi0 from rfl, hc] at hg
    exact hg
  refine ⟨fun hl => ?_, c, hc, hposted⟩
  have := hposted.symm.trans hl.posted
  simp at this

/-- Two coroutines on SPI0 and one on SPI1; the exchange of SPI1 ends first. -/
private def sharedRun : List Action :=
  [.spi (.coAwait spi0Base 1 ⟨0x07150000, 2⟩ ⟨0x07150010, 2⟩), .spi .start,
    .spi (.coAwait spi0Base 2 ⟨0x07150020, 1⟩ ⟨0x07150030, 1⟩), .spi .start,
    .spi (.coAwait spi1Base 3 ⟨0x07150040, 1⟩ ⟨0x07150050, 1⟩), .spi .start, .spi (.exchange spi1Base [7])]

theorem shared_line_ends_transfer_of_spi0 :
    MidTransfer (run (fun _ => 0) sharedRun) ∧
      ¬ LeftAlone (run (fun _ => 0) sharedRun)
        (step (run (fun _ => 0) sharedRun) (.external ClicIrq.gicGroup48_55.number)) :=
  ⟨by decide, (shared_line_ends_transfer (fun _ => 0) sharedRun (by decide)).1⟩

/-- The end of SPI1's exchange posts the first coroutine and starts the second
transfer of SPI0. -/
theorem spi1_interrupt_ends_spi0_transfer :
    let f := run (fun _ => 0) sharedRun
    let g := step f (.external ClicIrq.gicGroup48_55.number)
    MidTransfer f ∧ (f.spi.regs spi1Base).tc = true ∧ (f.spi.active .spi0).handle = some 1 ∧
      (g.spi.active .spi0).handle = some 2 ∧ SpiDma.handlesOf g.spi.trace = [1] ∧ ¬ LeftAlone f g := by
  refine ⟨by decide, by decide, by decide, by decide, by decide, fun h => ?_⟩
  exact absurd h.posted (by decide)

end IoProcessor.Hal.TrapHandler
