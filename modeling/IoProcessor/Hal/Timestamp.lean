import Mathlib.Data.Nat.ModEq
import IoProcessor.Library.History
import IoProcessor.Hal.HardwareTimer

/-! The microseconds of HardwareTimer: the cycle count is divided by the core
frequency in two parts, in 64-bit arithmetic that may wrap. -/
namespace IoProcessor.Hal.HardwareTimer
open Library MemoryMap Clocking History

/-- `get_time_us` when the cycle counter reads as given. -/
def getTimeUs (t : State) (cycles : BitVec 64) : Word :=
  let hz := t.coreFrequencyHz.setWidth 64
  (cycles / hz * 1000000 + cycles % hz * 1000000 / hz).setWidth 32

/-- The calls that other code makes to the timer. -/
inductive Call where
  | init (tickRateHz coreFrequencyHz timerCounterHz : Word) (now : BitVec 64)
  | initFromSharedClockConfiguration (m : Memory) (tickRateHz : Word) (now : BitVec 64)
  | handleIsr (now : BitVec 64)

def Call.apply (t : State) : Call → State
  | .init tickRateHz coreFrequencyHz timerCounterHz now => HardwareTimer.init t tickRateHz coreFrequencyHz timerCounterHz now
  | .initFromSharedClockConfiguration m tickRateHz now =>
    (HardwareTimer.initFromSharedClockConfiguration m t tickRateHz now).2
  | .handleIsr now => HardwareTimer.handleIsr t now

theorem init_coreFrequencyHz {t : State} (h : t.coreFrequencyHz ≠ 0) (tick core counter : Word) (now : BitVec 64) :
    (init t tick core counter now).coreFrequencyHz ≠ 0 := by
  unfold init
  split
  · exact h
  · rename_i hn
    exact fun hc => hn (.inr (.inl hc))

theorem Call.coreFrequencyHz {t : State} (h : t.coreFrequencyHz ≠ 0) (call : Call) :
    (call.apply t).coreFrequencyHz ≠ 0 := by
  cases call with
  | init tick core counter now => exact init_coreFrequencyHz h tick core counter now
  | initFromSharedClockConfiguration m tick now =>
    simp only [Call.apply, HardwareTimer.initFromSharedClockConfiguration]
    split
    · exact h
    · exact init_coreFrequencyHz h _ _ _ _
  | handleIsr now => exact h

/-- Microseconds, in numbers without a bound. -/
def micros (hz cycles : Nat) : Nat := cycles * 1000000 / hz

theorem micros_split {hz : Nat} (hz0 : 0 < hz) (cycles : Nat) :
    micros hz cycles = cycles / hz * 1000000 + cycles % hz * 1000000 / hz := by
  have hc : cycles * 1000000 = cycles % hz * 1000000 + hz * (cycles / hz * 1000000) := by
    conv_lhs => rw [← Nat.mod_add_div cycles hz, Nat.add_mul, Nat.mul_assoc]
  rw [micros, hc, Nat.add_mul_div_left _ _ hz0, Nat.add_comm]

theorem toNat_getTimeUs {t : State} (h : t.coreFrequencyHz ≠ 0) (cycles : BitVec 64) :
    (getTimeUs t cycles).toNat = micros t.coreFrequencyHz.toNat cycles.toNat % 2^32 := by
  have hz0 : 0 < t.coreFrequencyHz.toNat := Nat.pos_of_ne_zero fun hn => h (BitVec.eq_of_toNat_eq hn)
  have hhz : (t.coreFrequencyHz.setWidth 64).toNat = t.coreFrequencyHz.toNat := BitVec.toNat_setWidth_of_le (by decide)
  -- The remainder is below the frequency, so only the other product can wrap.
  have hrest : cycles.toNat % t.coreFrequencyHz.toNat * 1000000 < 2^64 := by
    have := Nat.mod_lt cycles.toNat hz0
    have := t.coreFrequencyHz.isLt
    omega
  have hmul : (cycles % t.coreFrequencyHz.setWidth 64 * 1000000).toNat =
      cycles.toNat % t.coreFrequencyHz.toNat * 1000000 := by
    rw [BitVec.toNat_mul, BitVec.toNat_umod, hhz]
    exact Nat.mod_eq_of_lt hrest
  rw [micros_split hz0, getTimeUs, BitVec.toNat_setWidth, BitVec.toNat_add, BitVec.toNat_mul, BitVec.toNat_udiv,
    BitVec.toNat_udiv, hmul, hhz, Nat.mod_add_mod, Nat.mod_mod_of_dvd _ (by decide)]
  rfl

theorem micros_mono (hz : Nat) {c d : Nat} (h : c ≤ d) : micros hz c ≤ micros hz d :=
  Nat.div_le_div_right (Nat.mul_le_mul_right _ h)

/-- After any calls of the timer, its microseconds are those of the cycle count
modulo 2^32, and differences of less than that are exact. -/
theorem time_us_exact (low high mie mstatus : Word) (calls : List Call) (c : BitVec 64) :
    let t := run Call.apply (atReset low high mie mstatus) calls
    let us (c : BitVec 64) : Nat := c.toNat * 1000000 / t.coreFrequencyHz.toNat
    t.coreFrequencyHz ≠ 0 ∧ (getTimeUs t c).toNat = us c % 2^32 ∧
      ∀ c', c ≤ c' → us c' - us c < 2^32 → (getTimeUs t c' - getTimeUs t c).toNat = us c' - us c := by
  intro t us
  have hreset : (atReset low high mie mstatus).coreFrequencyHz ≠ 0 := by
    change cpuFreqHz ≠ 0
    decide
  have keep (t : State) (call : Call) (h : t.coreFrequencyHz ≠ 0) : (call.apply t).coreFrequencyHz ≠ 0 :=
    call.coreFrequencyHz h
  have ht : t.coreFrequencyHz ≠ 0 := run_invariant keep hreset calls
  refine ⟨ht, toNat_getTimeUs ht c, ?_⟩
  intro c' hc hlt
  have hle : us c ≤ us c' := micros_mono t.coreFrequencyHz.toNat hc
  have hus (d : BitVec 64) : (getTimeUs t d).toNat = us d % 2^32 := toNat_getTimeUs ht d
  rw [BitVec.toNat_sub, hus, hus]
  omega

end IoProcessor.Hal.HardwareTimer
