import IoProcessor.Hal.SpiWaiters
import IoProcessor.Hal.TwiWaiters
import IoProcessor.Hal.UartDma
import IoProcessor.Hal.Gpio
import IoProcessor.Hal.Msgbox
import IoProcessor.Hal.Trace

/-! The drivers together over one memory, and the trap handler that routes each
CLIC line to one of them. Calls of different drivers are not ordered against
each other, which admits more runs than the one coroutine domain has. -/
namespace IoProcessor.Hal.TrapHandler
open Library MemoryMap History Relation

/-- The memory is one: a driver works on it in its turn, and its own copy is
not looked at before the next one. -/
structure Firmware where
  spi : SpiDma.State
  twi : Twi.State
  uart : UartDma.State
  gpio : Gpio.State
  msgbox : Msgbox.State Msgbox.Mailbox
  trace : Trace.Buffer
  clic : Word → Word
  ram : Memory

namespace Firmware

def onSpi (f : Firmware) (op : SpiDma.State → SpiDma.State) : Firmware :=
  let s := op { f.spi with ram := f.ram }
  { f with spi := s, ram := s.ram }

def onTwi (f : Firmware) (op : Twi.State → Twi.State) : Firmware :=
  let s := op { f.twi with ram := f.ram }
  { f with twi := s, ram := s.ram }

def onUart (f : Firmware) (op : UartDma.State → UartDma.State) : Firmware :=
  let s := op { f.uart with ram := f.ram }
  { f with uart := s, ram := s.ram }

def onGpio (f : Firmware) (op : Gpio.State → Gpio.State) : Firmware := { f with gpio := op f.gpio }

def onMsgbox (f : Firmware) (op : Msgbox.State Msgbox.Mailbox → Msgbox.State Msgbox.Mailbox) : Firmware :=
  let s := op { f.msgbox with world.ram := f.ram }
  { f with msgbox := s, ram := s.world.ram }

def onTrace (f : Firmware) (op : Trace.Buffer → Trace.Buffer) : Firmware :=
  let s := op { f.trace with ram := f.ram }
  { f with trace := s, ram := s.ram }

end Firmware

def maxInterrupts : Word := 144
def intIe : Word := 1#32 <<< 8

/-- `Clic::disable` on the interrupt registers, indexed by their line. -/
def clicDisable (f : Firmware) (irq : Word) : Firmware :=
  if irq ≥ maxInterrupts then f
  else { f with clic := Function.update f.clic irq (f.clic irq &&& ~~~intIe) }

def dispatchExternal (f : Firmware) (clicId : Word) : Firmware :=
  if clicId = ClicIrq.gpioLS.number ∨ clicId = ClicIrq.gpioLNS.number then
    f.onGpio (Gpio.handleBankIsr · Gpio.portL)
  else if clicId = ClicIrq.gpioMS.number ∨ clicId = ClicIrq.gpioMNS.number then
    f.onGpio (Gpio.handleBankIsr · Gpio.portM)
  else if clicId = ClicIrq.riscvMsgbox.number ∨ clicId = ClicIrq.cpusMsgboxRiscv.number then
    f.onMsgbox (Msgbox.handleIsr Msgbox.mailbox)
  else if clicId = ClicIrq.sUart0.number ∨ clicId = ClicIrq.sUart1.number then f.onUart UartDma.handleIsr
  else if clicId = ClicIrq.sTwi0.number then f.onTwi (Twi.handleIsr · sTwi0Base)
  else if clicId = ClicIrq.sTwi1.number then f.onTwi (Twi.handleIsr · sTwi1Base)
  else if clicId = ClicIrq.sTwi2.number then f.onTwi (Twi.handleIsr · sTwi2Base)
  else if clicId = ClicIrq.sSpi.number then f.onSpi SpiDma.handleSpi1Isr
  else if clicId = ClicIrq.gicGroup48_55.number then f.onSpi SpiDma.handleSpi0Isr
  else
    (clicDisable f clicId).onTrace
      (Trace.putDec · (some (Trace.chars "[riscv] unhandled CLIC irq ")) clicId)

/-- A step of one driver or of its hardware, a call of Trace, or an external
interrupt, which may arrive on any line at any time. -/
inductive Action where
  | spi (a : SpiDma.Action)
  | twi (a : Twi.Action)
  | uart (a : UartDma.Action)
  | gpio (a : Gpio.Action)
  | msgbox (a : Msgbox.Action)
  | trace (call : Trace.Call)
  | external (clicId : Word)
  deriving DecidableEq, Repr

def step (f : Firmware) : Action → Firmware
  | .spi a => f.onSpi (SpiDma.step · a)
  | .twi a => f.onTwi (Twi.step · a)
  | .uart a => f.onUart (UartDma.step · a)
  | .gpio a => f.onGpio (Gpio.step · a)
  | .msgbox a => f.onMsgbox (Msgbox.step · a)
  | .trace call => f.onTrace call.apply
  | .external clicId => dispatchExternal f clicId

def init (ram : Memory) : Firmware where
  spi := SpiDma.init ram
  twi := Twi.init ram
  uart := UartDma.init ram
  gpio := Gpio.init
  msgbox := ⟨.init, ⟨0, 0, [], [], ram⟩, []⟩
  trace := ⟨ram, 0, false, fun _ => false⟩
  clic _ := 0
  ram := ram

abbrev run (ram : Memory) (acts : List Action) : Firmware := History.run step (init ram) acts

/-- What an external interrupt can come to: the handler of one driver, or a
line that no driver has claimed. -/
inductive Routed (f : Firmware) : Firmware → Prop where
  | spi (i : SpiDma.Instance) : Routed f (step f (.spi (.isr i)))
  | twi (b : Twi.Bus) : Routed f (step f (.twi (.isr b)))
  | uart : Routed f (step f (.uart .isr))
  | gpio (port : Word) : Routed f (step f (.gpio (.bankIsr port)))
  | msgbox : Routed f (step f (.msgbox .isr))
  | unclaimed (clic : Word → Word) (call : Trace.Call) : Routed f (step { f with clic := clic } (.trace call))

theorem dispatchExternal_routed (f : Firmware) (clicId : Word) : Routed f (dispatchExternal f clicId) := by
  unfold dispatchExternal
  refine iteInduction (fun _ => .gpio _) fun _ => ?_
  refine iteInduction (fun _ => .gpio _) fun _ => ?_
  refine iteInduction (fun _ => .msgbox) fun _ => ?_
  refine iteInduction (fun _ => .uart) fun _ => ?_
  refine iteInduction (fun _ => .twi .twi0) fun _ => ?_
  refine iteInduction (fun _ => .twi .twi1) fun _ => ?_
  refine iteInduction (fun _ => .twi .twi2) fun _ => ?_
  refine iteInduction (fun _ => .spi .spi1) fun _ => ?_
  refine iteInduction (fun _ => .spi .spi0) fun _ => ?_
  -- No driver has claimed the line.
  unfold clicDisable
  split
  · exact .unclaimed f.clic (.putDec _ clicId)
  · exact .unclaimed _ (.putDec _ clicId)

/-- An await finds room in the queue it pushes to. -/
def Room (f : Firmware) : Action → Prop
  | .spi a => SpiDma.Room f.spi a
  | .twi a => Twi.Room f.twi a
  | .uart a => UartDma.Room f.uart a
  | .gpio a => Gpio.Room f.gpio a
  | .msgbox a => Msgbox.Room f.msgbox a
  | .trace _ | .external _ => True

instance (f : Firmware) : (a : Action) → Decidable (Room f a)
  | .spi a => inferInstanceAs (Decidable (SpiDma.Room f.spi a))
  | .twi a => inferInstanceAs (Decidable (Twi.Room f.twi a))
  | .uart a => inferInstanceAs (Decidable (UartDma.Room f.uart a))
  | .gpio a => inferInstanceAs (Decidable (Gpio.Room f.gpio a))
  | .msgbox a => inferInstanceAs (Decidable (Msgbox.Room f.msgbox a))
  | .trace _ | .external _ => .isTrue trivial

/-- Every coroutine that waits for a driver is held by it. -/
structure Held (f : Firmware) : Prop where
  spi : ∀ i, (SpiDma.slotOf f.spi i).AllHeld
  twi : ∀ b, (Twi.viewOf f.twi b).AllHeld
  uart : UartDma.AllQueued f.uart
  gpio : Gpio.AllQueued f.gpio
  msgbox : Msgbox.AllQueued f.msgbox

structure Held.Inv (f : Firmware) : Prop extends Held f where
  settled : ∀ b, (Twi.viewOf f.twi b).Settled

theorem Held.init (ram : Memory) : Held.Inv (init ram) where
  spi _ := Waiters.allHeld_nil _
  twi _ := Waiters.allHeld_nil _
  uart := Waiters.allHeld_nil _
  gpio := Waiters.allHeld_nil _
  msgbox := Waiters.allHeld_nil _
  settled _ := .inr rfl

namespace Held.Inv
variable {f : Firmware}

theorem spiStep (h : Inv f) {a : SpiDma.Action} (ha : SpiDma.Room f.spi a) : Inv (step f (.spi a)) := by
  have ha : SpiDma.Room { f.spi with ram := f.ram } a := ha
  have keep (v w : SpiDma.Slot) (hs : SpiDma.SlotStep False v w) (hv : v.AllHeld) : w.AllHeld := hs.allHeld hv
  have hi (i : SpiDma.Instance) : (SpiDma.slotOf (step f (.spi a)).spi i).AllHeld :=
    transitions_keep keep (ha.slot i) (h.spi i)
  exact { h with spi := hi }

theorem twiStep (h : Inv f) {a : Twi.Action} (ha : Twi.Room f.twi a) : Inv (step f (.twi a)) := by
  have ha : Twi.Room { f.twi with ram := f.ram } a := ha
  let Kept (v : Twi.View) : Prop := v.Settled ∧ v.AllHeld
  have keep (v w : Twi.View) (hs : Twi.ViewStep False (fun _ _ _ => True) v w) (hv : Kept v) : Kept w :=
    ⟨hs.settled hv.1, hs.allHeld hv.1 hv.2⟩
  have hb (b : Twi.Bus) : Kept (Twi.viewOf (step f (.twi a)).twi b) :=
    transitions_keep keep (ha.view b) ⟨h.settled b, h.twi b⟩
  exact { h with twi := fun b => (hb b).2, settled := fun b => (hb b).1 }

theorem uartStep (h : Inv f) {a : UartDma.Action} (ha : UartDma.Room f.uart a) : Inv (step f (.uart a)) := by
  have hs : UartDma.AllQueued { f.uart with ram := f.ram } := h.uart
  exact { h with uart := UartDma.step_allQueued hs ha }

theorem gpioStep (h : Inv f) {a : Gpio.Action} (ha : Gpio.Room f.gpio a) : Inv (step f (.gpio a)) :=
  { h with gpio := Gpio.step_allQueued h.gpio ha }

theorem msgboxStep (h : Inv f) {a : Msgbox.Action} (ha : Msgbox.Room f.msgbox a) : Inv (step f (.msgbox a)) := by
  have hs : Msgbox.AllQueued { f.msgbox with world.ram := f.ram } := h.msgbox
  exact { h with msgbox := Msgbox.step_allQueued hs ha }

theorem routed (h : Inv f) {g : Firmware} (hr : Routed f g) : Inv g := by
  cases hr with
  | spi i => exact h.spiStep trivial
  | twi b => exact h.twiStep (by simp [Twi.Room, Twi.Action.awaits])
  | uart => exact h.uartStep trivial
  | gpio port => exact h.gpioStep trivial
  | msgbox => exact h.msgboxStep trivial
  | unclaimed clic call => exact { h with }

theorem step (h : Inv f) {a : Action} (ha : Room f a) : Inv (TrapHandler.step f a) := by
  cases a with
  | spi a => exact h.spiStep ha
  | twi a => exact h.twiStep ha
  | uart a => exact h.uartStep ha
  | gpio a => exact h.gpioStep ha
  | msgbox a => exact h.msgboxStep ha
  | trace call => exact { h with }
  | external clicId => exact h.routed (dispatchExternal_routed f clicId)

end Held.Inv

/-- No suspended coroutine is forgotten, in every run whose awaits find room in
their queues. -/
theorem no_waiter_forgotten (ram : Memory) (acts : List Action) (h : Along step Room (init ram) acts) :
    Held (run ram acts) := by
  have keep (f : Firmware) (a : Action) (hf : Held.Inv f) (ha : Room f a) : Held.Inv (step f a) := hf.step ha
  exact (run_invariant_along keep (Held.init ram) h).toHeld

/-- One coroutine at each driver, and a message from Linux for the fifth. -/
private def oneEach : List Action :=
  ([.spi (.coAwait spi0Base 1 ⟨0x07150000, 1⟩ ⟨0x07150010, 1⟩), .spi .start,
    .twi (.coAwaitWrite sTwi0Base 2 0x68 0x10 ⟨0x07150020, 1⟩ 0x07150030)] : List Action) ++
  List.replicate 4 (Action.twi .proceed) ++
  ([.uart (.coAwait 3 ⟨0x07150040, 4⟩ 0x07150050), .gpio (.waitForEdge 4 Gpio.portL 3), .gpio .proceed,
    .msgbox (.waitForDoorbell 5 0x07150060), .msgbox (.hardware 1 [7]), .external ClicIrq.riscvMsgbox.number] : List Action)

theorem no_waiter_forgotten_one_each :
    let f := run (fun _ => 0) oneEach
    (f.spi.active .spi0).handle = some 1 ∧ f.uart.trace = [.suspended 3] ∧
      f.msgbox.trace = [.suspended 5, .posted 5 7] ∧ Held f :=
  ⟨by decide, by decide, by decide, no_waiter_forgotten (fun _ => 0) oneEach (by decide)⟩

/-- Nine coroutines wait for edges, which is one more than the queue takes. -/
private def nineEdges : List Action :=
  (List.range 9).flatMap fun i => [.gpio (.waitForEdge (i+1) Gpio.portL (BitVec.ofNat 32 i)), .gpio .proceed]

theorem ninth_waiter_forgotten : ¬ Held (run (fun _ => 0) nineEdges) := by
  intro h
  have hwaits : Waiters.Waits (Gpio.waitsOf (run (fun _ => 0) nineEdges).gpio.trace) 9 :=
    ⟨(List.range 8).map fun i => .suspended (i+1), [], rfl, by simp⟩
  have hheld : ∃ r ∈ (run (fun _ => 0) nineEdges).gpio.pending.toList, r.handle = some 9 := h.gpio 9 hwaits
  revert hheld
  decide

end IoProcessor.Hal.TrapHandler
