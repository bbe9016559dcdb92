import Mathlib.Algebra.Order.Field.Basic
import Mathlib.Algebra.Order.Field.Rat
import Mathlib.Tactic.FieldSimp
import Mathlib.Tactic.Linarith
import IoProcessor.Hal.BootHandshake
import IoProcessor.Hal.TimerTicks

/-! What sleep_ms measures: the service takes each tick for a millisecond, while
the tick rate is a parameter of the boot handshake. -/
namespace IoProcessor.Hal.Boot
open Library MemoryMap History Clocking HardwareTimer Clock

/-- The handshake accepts a tick rate. -/
def Accepts (f : Firmware) (timerTickHz : Word) : Prop :=
  ∀ now, (initializeFromLinuxClockConfiguration f timerTickHz now).1 = true

def started (f : Firmware) (timerTickHz : Word) (now : BitVec 64) : Clock :=
  ⟨(initializeFromLinuxClockConfiguration f timerTickHz now).2.timer, now⟩

/-- Every interrupt is served before the next deadline. -/
def OnTime (c : Clock) (nows : List (BitVec 64)) : Prop :=
  Along serve (fun c now => Due c now ∧ InTime c now) c nows

/-- After any interrupts served in time, the milliseconds that the service was
fed are less than a tick period away from the time that has passed, in seconds. -/
def MeasuresMilliseconds (f : Firmware) (timerTickHz : Word) : Prop :=
  ∀ t0 nows, OnTime (started f timerTickHz t0) nows →
    let c := run serve (started f timerTickHz t0) nows
    let counterHz : ℚ := (readSharedConfiguration f.ram).timerCounterHz.toNat
    let period : ℚ := c.timer.periodCycles.toNat
    |(fed c.timer.service : ℚ) / 1000 - nows.length * period / counterHz| < period / counterHz

theorem fed_run (c : Clock) (nows : List (BitVec 64)) :
    fed (run serve c nows).timer.service = fed c.timer.service + nows.length := by
  induction nows generalizing c with
  | nil => rfl
  | cons now nows ih =>
    rw [run_cons, ih, List.length_cons]
    have hs : fed (c.serve now).timer.service = fed c.timer.service + 1 := fed_handleIsr c.timer now
    omega

theorem periodCycles_run (c : Clock) (nows : List (BitVec 64)) :
    (run serve c nows).timer.periodCycles = c.timer.periodCycles := by
  induction nows generalizing c with
  | nil => rfl
  | cons now nows ih => rw [run_cons, ih, serve, handleIsr_periodCycles]

/-- Each interrupt served at its deadline, as long as the counter lasts. -/
theorem onTime_exists {c : Clock} {t0 : BitVec 64} {period : Word} (h : Accounted t0 period c) (hp : 1 ≤ period)
    (hm : c.mtime ≤ c.timer.nextTickMtime) (n : Nat)
    (hfit : t0.toNat + (fed c.timer.service + 1 + n) * period.toNat < 2^64) :
    ∃ nows : List (BitVec 64), nows.length = n ∧ OnTime c nows := by
  induction n generalizing c with
  | zero => exact ⟨[], rfl, trivial⟩
  | succ n ih =>
    have hnext := h.next
    have hperiod : 1 ≤ period.toNat := hp
    have hgrid : t0.toNat + (fed c.timer.service + 1) * period.toNat + period.toNat ≤
        t0.toNat + (fed c.timer.service + 1 + (n + 1)) * period.toNat := by
      rw [Nat.add_assoc, ← Nat.succ_mul]
      exact Nat.add_le_add_left (Nat.mul_le_mul_right _ (by omega)) _
    have hd : Due c c.timer.nextTickMtime := ⟨hm, h.compare ▸ BitVec.le_refl _⟩
    have hi : InTime c c.timer.nextTickMtime := by
      rw [InTime, BitVec.lt_def, BitVec.toNat_add, toNat_period, h.cycles, Nat.mod_eq_of_lt (by omega)]
      omega
    obtain ⟨hserved, -⟩ := h.serve_in_time hp hd hi
    have hfed : fed (c.serve c.timer.nextTickMtime).timer.service = fed c.timer.service + 1 :=
      fed_handleIsr c.timer _
    have hafter : (c.serve c.timer.nextTickMtime).mtime ≤ (c.serve c.timer.nextTickMtime).timer.nextTickMtime := by
      rw [BitVec.le_def, hserved.next, hfed, Nat.succ_mul]
      show c.timer.nextTickMtime.toNat ≤ _
      omega
    obtain ⟨nows, hlen, hnows⟩ := ih hserved hafter (by rw [hfed, Nat.add_right_comm _ 1 n]; exact hfit)
    exact ⟨c.timer.nextTickMtime :: nows, by rw [List.length_cons, hlen], ⟨hd, hi⟩, hnows⟩

/-- The error after n ticks, in integers. -/
theorem error_lt_iff (n period : Nat) {counterHz : Nat} (hc : 0 < counterHz) :
    |(n : ℚ) / 1000 - n * period / counterHz| < period / counterHz ↔
      |(n : ℤ) * (counterHz - 1000 * period)| < 1000 * period := by
  have hq : (0 : ℚ) < counterHz := by exact_mod_cast hc
  have he : (n : ℚ) / 1000 - n * period / counterHz = n * (counterHz - 1000 * period) / (1000 * counterHz) := by
    field_simp
  have hp : (period : ℚ) / counterHz = 1000 * period / (1000 * counterHz) := by
    field_simp
  rw [he, hp, abs_div, abs_of_pos (by positivity : (0 : ℚ) < 1000 * counterHz),
    div_lt_div_iff_of_pos_right (by positivity)]
  exact_mod_cast Iff.rfl

/-- An error per tick outgrows the tick period before the counter ends. -/
theorem error_outgrows {period counterHz : Nat} (hp : 1 ≤ period) (hc : counterHz < 2^32) (hp' : period < 2^32)
    (hne : 1000 * period ≠ counterHz) :
    ∃ n, (1 + n) * period < 2^64 ∧ 1000 * (period : ℤ) ≤ |(n : ℤ) * (counterHz - 1000 * period)| := by
  have habs : 1 ≤ |(counterHz : ℤ) - 1000 * period| := Int.one_le_abs (by omega)
  by_cases hsmall : period < 2^24
  · refine ⟨1000 * period, ?_, ?_⟩
    · calc (1 + 1000 * period) * period ≤ (1 + 1000 * 2^24) * 2^24 := Nat.mul_le_mul (by omega) hsmall.le
        _ < 2^64 := by decide
    · rw [abs_mul, abs_of_nonneg (by positivity : (0 : ℤ) ≤ ((1000 * period : Nat) : ℤ))]
      push_cast
      exact le_mul_of_one_le_right (by positivity) habs
  · -- The period alone is far more than a thousandth of the counter's rate.
    refine ⟨2, by omega, ?_⟩
    rw [abs_mul, abs_of_nonpos (by omega : (counterHz : ℤ) - 1000 * period ≤ 0)]
    norm_num
    omega

theorem accepts_iff (f : Firmware) (tick : Word) :
    Accepts f tick ↔ (readSharedConfiguration f.ram).isValid = true ∧ tick ≠ 0 ∧
      tick ≤ (readSharedConfiguration f.ram).timerCounterHz :=
  ⟨fun ha => (initialize_eq_true_iff f tick 0).mp (ha 0), fun hv now => (initialize_eq_true_iff f tick now).mpr hv⟩

variable {f : Firmware} {tick : Word}

/-- The handshake starts the timer as `init` does. -/
theorem started_eq (ha : Accepts f tick) (t0 : BitVec 64) :
    started f tick t0 = boot f.timer tick (readSharedConfiguration f.ram).riscvCoreHz
      (readSharedConfiguration f.ram).timerCounterHz t0 := by
  have hr := ha t0
  rcases initialize_cases f tick t0 with ⟨-, hf, -⟩ | ⟨-, -, hf, -⟩ | ⟨-, -, -, -, ht, -⟩
  · rw [hf] at hr
    cases hr
  · rw [hf] at hr
    cases hr
  · rw [started, ht, boot]

/-- What is accepted has clocks that run and a tick of at least one count. -/
theorem Accepts.clocks (ha : Accepts f tick) :
    (readSharedConfiguration f.ram).riscvCoreHz ≠ 0 ∧ 0 < (readSharedConfiguration f.ram).timerCounterHz.toNat ∧
      1 ≤ (readSharedConfiguration f.ram).timerCounterHz / tick := by
  obtain ⟨hv, ht, hle⟩ := (accepts_iff f tick).mp ha
  obtain ⟨-, -, -, -, hcore, hcounter⟩ := (ClockConfiguration.isValid_iff _).mp hv
  refine ⟨hcore, Nat.pos_of_ne_zero fun h => hcounter (BitVec.eq_of_toNat_eq h), ?_⟩
  rw [BitVec.le_def, BitVec.toNat_udiv]
  exact Nat.div_pos hle (Nat.pos_of_ne_zero fun h => ht (BitVec.eq_of_toNat_eq h))

/-- Every call feeds one millisecond and keeps the period. -/
theorem run_started (ha : Accepts f tick) (t0 : BitVec 64) (nows : List (BitVec 64)) :
    let c := run serve (started f tick t0) nows
    fed c.timer.service = nows.length ∧
      c.timer.periodCycles.toNat = (readSharedConfiguration f.ram).timerCounterHz.toNat / tick.toNat := by
  obtain ⟨hcore, -, hperiod⟩ := ha.clocks
  obtain ⟨harmed, hfed⟩ := boot_armed f.timer hcore hperiod t0
  intro c
  rw [fed_run, periodCycles_run, started_eq ha, hfed, harmed.cycles, BitVec.toNat_udiv]
  exact ⟨Nat.zero_add _, rfl⟩

/-- Any number of interrupts can be served in time before the counter ends. -/
theorem onTime_of_started (ha : Accepts f tick) {n : Nat}
    (hfit : (1 + n) * ((readSharedConfiguration f.ram).timerCounterHz.toNat / tick.toNat) < 2^64) :
    ∃ nows : List (BitVec 64), nows.length = n ∧ OnTime (started f tick 0) nows := by
  obtain ⟨hcore, -, hperiod⟩ := ha.clocks
  have hlt : (readSharedConfiguration f.ram).timerCounterHz.toNat / tick.toNat < 2^32 :=
    Nat.lt_of_le_of_lt (Nat.div_le_self _ _) (BitVec.isLt _)
  have hboot : Accounted 0 ((readSharedConfiguration f.ram).timerCounterHz / tick) (started f tick 0) := by
    rw [started_eq ha]
    refine .boot f.timer hcore hperiod ?_
    rw [BitVec.toNat_udiv]
    exact Nat.lt_trans (by simpa using hlt) (by decide)
  have hfed : fed (started f tick 0).timer.service = 0 := (run_started ha 0 []).1
  refine onTime_exists hboot hperiod (BitVec.le_def.mpr (Nat.zero_le _)) n ?_
  rw [hfed, BitVec.toNat_udiv]
  simpa using hfit

/-- Exactly the rates whose period is the thousandth part of a second measure
milliseconds. -/
theorem sleep_measures_milliseconds_iff (f : Firmware) (tick : Word) (ha : Accepts f tick) :
    MeasuresMilliseconds f tick ↔
      1000 * ((readSharedConfiguration f.ram).timerCounterHz.toNat / tick.toNat) =
        (readSharedConfiguration f.ram).timerCounterHz.toNat := by
  obtain ⟨-, hpos, hperiod⟩ := ha.clocks
  have hp : 1 ≤ (readSharedConfiguration f.ram).timerCounterHz.toNat / tick.toNat := by
    rw [← BitVec.toNat_udiv]
    exact hperiod
  have hlt : (readSharedConfiguration f.ram).timerCounterHz.toNat / tick.toNat < 2^32 :=
    Nat.lt_of_le_of_lt (Nat.div_le_self _ _) (BitVec.isLt _)
  unfold MeasuresMilliseconds
  simp only [(run_started ha _ _).1, (run_started ha _ _).2, error_lt_iff _ _ hpos]
  constructor
  · intro hall
    by_contra hne
    obtain ⟨n, hfit, hlarge⟩ := error_outgrows hp (BitVec.isLt _) hlt hne
    obtain ⟨nows, hlen, hon⟩ := onTime_of_started ha hfit
    have := hall 0 nows hon
    rw [hlen] at this
    omega
  · intro heq t0 nows _
    have hz : ((readSharedConfiguration f.ram).timerCounterHz.toNat : ℤ) -
        1000 * (((readSharedConfiguration f.ram).timerCounterHz.toNat / tick.toNat : Nat) : ℤ) = 0 := by omega
    rw [hz, mul_zero, abs_zero]
    omega

/-- 600 MHz core and 24 MHz counter. -/
private def linuxClocks : Firmware where
  ram := Memory.store (fun _ => 0) ipcClockConfigAddr
    (([0x4B4C4343, 1, 64, 7, 600000000, 24000000] : List Word).flatMap (Memory.littleEndian 4))
  timer := atReset 0 0 0 0
  log := []

theorem kilohertz_measures_milliseconds : MeasuresMilliseconds linuxClocks 1000 :=
  (sleep_measures_milliseconds_iff linuxClocks 1000 ((accepts_iff _ _).mpr (by decide))).mpr (by decide)

/-- At 100 Hz a tick takes ten milliseconds and is counted as one. -/
theorem hundred_hertz_is_no_millisecond :
    Accepts linuxClocks 100 ∧ ¬ MeasuresMilliseconds linuxClocks 100 := by
  refine ⟨(accepts_iff _ _).mpr (by decide), ?_⟩
  intro h
  have hon : OnTime (started linuxClocks 100 0) [240000, 480000] := by
    unfold OnTime
    decide
  have hfed : fed (run serve (started linuxClocks 100 0) [240000, 480000]).timer.service = 2 := by decide
  have hperiod : (run serve (started linuxClocks 100 0) [240000, 480000]).timer.periodCycles.toNat = 240000 := by decide
  have hcounter : (readSharedConfiguration linuxClocks.ram).timerCounterHz.toNat = 24000000 := by decide
  have herror := h 0 _ hon
  simp only [hfed, hperiod, hcounter, List.length_cons, List.length_nil] at herror
  norm_num [abs_lt] at herror

end IoProcessor.Hal.Boot
