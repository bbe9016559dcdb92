import IoProcessor.Hal.ClockConfig

/-! HardwareTimer: its static fields, the compare register and the interrupt
enables of the core. A reading of `mtime` is a parameter of what reads it. -/
namespace IoProcessor.Hal.HardwareTimer
open Library MemoryMap Clocking

/-- The bring-up fallback. -/
def cpuFreqHz : Word := 600000000

/-- Calls of the timer service of AbstractX. -/
inductive ServiceCall where
  | init
  | tick (elapsed : Word)
  deriving DecidableEq, Repr

structure State where
  periodCycles : Word
  coreFrequencyHz : Word
  timerCounterHz : Word
  timerInterruptCount : Word
  nextTickMtime : BitVec 64
  mtimecmpLow : Word
  mtimecmpHigh : Word
  mie : Word
  mstatus : Word
  service : List ServiceCall

/-- The static fields before `init`, over any hardware. -/
def atReset (mtimecmpLow mtimecmpHigh mie mstatus : Word) : State where
  periodCycles := cpuFreqHz / 1000
  coreFrequencyHz := cpuFreqHz
  timerCounterHz := cpuFreqHz
  timerInterruptCount := 0
  nextTickMtime := 0
  mtimecmpLow := mtimecmpLow
  mtimecmpHigh := mtimecmpHigh
  mie := mie
  mstatus := mstatus
  service := []

def State.mtimecmp (t : State) : BitVec 64 := t.mtimecmpHigh ++ t.mtimecmpLow

/-- Three stores: the high word is out of reach while the low one changes. -/
def writeMtimecmp (t : State) (target : BitVec 64) : State :=
  let t := { t with mtimecmpHigh := 0xFFFFFFFF }
  let t := { t with mtimecmpLow := target.setWidth 32 }
  { t with mtimecmpHigh := (target >>> 32).setWidth 32 }

def setTimerPeriod (t : State) (period : Word) (now : BitVec 64) : State :=
  let next := now + period.setWidth 64
  writeMtimecmp { t with periodCycles := period, nextTickMtime := next } next

/-- MTIE and MIE. -/
def enableTimerInterrupt (t : State) : State :=
  { t with mie := t.mie ||| 1#32 <<< 7, mstatus := t.mstatus ||| 1#32 <<< 3 }

def init (t : State) (tickRateHz coreFrequencyHz timerCounterHz : Word) (now : BitVec 64) : State :=
  if tickRateHz = 0 ∨ coreFrequencyHz = 0 ∨ timerCounterHz = 0 then t
  else
    let t := { t with
      coreFrequencyHz := coreFrequencyHz
      timerCounterHz := timerCounterHz
      timerInterruptCount := 0
      service := t.service ++ [.init] }
    enableTimerInterrupt (setTimerPeriod t (timerCounterHz / tickRateHz) now)

def initFromSharedClockConfiguration (m : Memory) (t : State) (tickRateHz : Word) (now : BitVec 64) : Bool × State :=
  let configuration := readSharedConfiguration m
  if !configuration.isValid then (false, t)
  else (true, init t tickRateHz configuration.riscvCoreHz configuration.timerCounterHz now)

def armNextTick (t : State) (now : BitVec 64) : State :=
  let next := t.nextTickMtime + t.periodCycles.setWidth 64
  let next := if next ≤ now then now + t.periodCycles.setWidth 64 else next
  writeMtimecmp { t with nextTickMtime := next } next

def handleIsr (t : State) (now : BitVec 64) : State :=
  let t := armNextTick t now
  { t with timerInterruptCount := t.timerInterruptCount + 1, service := t.service ++ [.tick 1] }

/-- The timer interrupts after every `period` counts, from `now` on. -/
structure Armed (t : State) (period : Word) (now : BitVec 64) : Prop where
  cycles : t.periodCycles = period
  next : t.nextTickMtime = now + period.setWidth 64
  compare : t.mtimecmp = t.nextTickMtime
  timerEnabled : t.mie.getLsbD 7 = true
  enabled : t.mstatus.getLsbD 3 = true

theorem mtimecmp_writeMtimecmp (t : State) (target : BitVec 64) : (writeMtimecmp t target).mtimecmp = target := by
  apply BitVec.eq_of_getLsbD_eq
  intro i hi
  simp only [writeMtimecmp, State.mtimecmp, BitVec.getLsbD_append, BitVec.getLsbD_setWidth, BitVec.getLsbD_ushiftRight]
  by_cases h : i < 32
  · simp [h]
  · simp [h, show i - 32 < 32 by omega, show 32 + (i - 32) = i by omega]

/-- What `init` sets up where it does not refuse. -/
theorem init_armed {tickRateHz coreFrequencyHz timerCounterHz : Word} (t : State) (ht : tickRateHz ≠ 0)
    (hc : coreFrequencyHz ≠ 0) (hh : timerCounterHz ≠ 0) (now : BitVec 64) :
    let u := init t tickRateHz coreFrequencyHz timerCounterHz now
    Armed u (timerCounterHz / tickRateHz) now ∧ u.coreFrequencyHz = coreFrequencyHz ∧
      u.timerCounterHz = timerCounterHz := by
  have hi : init t tickRateHz coreFrequencyHz timerCounterHz now =
      enableTimerInterrupt (setTimerPeriod { t with
        coreFrequencyHz := coreFrequencyHz
        timerCounterHz := timerCounterHz
        timerInterruptCount := 0
        service := t.service ++ [.init] } (timerCounterHz / tickRateHz) now) := by
    rw [init, if_neg (not_or.mpr ⟨ht, not_or.mpr ⟨hc, hh⟩⟩)]
  rw [hi]
  refine ⟨⟨rfl, rfl, mtimecmp_writeMtimecmp t _, ?_, ?_⟩, rfl, rfl⟩
  · simp [enableTimerInterrupt]
  · simp [enableTimerInterrupt]

/-- Without a period the deadline that has passed is armed again. -/
theorem handleIsr_without_period {t : State} (h : t.periodCycles = 0) {now : BitVec 64} (hn : t.nextTickMtime ≤ now) :
    (handleIsr t now).mtimecmp ≤ now ∧ (handleIsr t now).periodCycles = 0 := by
  refine ⟨?_, h⟩
  have hz : (0#32).setWidth 64 = 0#64 := rfl
  have hm : (handleIsr t now).mtimecmp = now := by
    refine (mtimecmp_writeMtimecmp t _).trans ?_
    rw [h, BitVec.ofNat_eq_ofNat, hz, BitVec.add_zero, BitVec.add_zero, if_pos hn]
  rw [hm]
  exact BitVec.le_refl now

end IoProcessor.Hal.HardwareTimer
