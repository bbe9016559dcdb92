import IoProcessor.Library.Deadline
import IoProcessor.Library.History
import IoProcessor.Hal.HardwareTimer

/-! Runs of the timer interrupt: when the ticks that the service is fed count
the time since init, and where the next deadline lies. -/
namespace IoProcessor.Hal.HardwareTimer
open Library MemoryMap History

/-- The ticks that the service was fed since its init. -/
def fed (calls : List ServiceCall) : Nat :=
  calls.foldl (fun n call => match call with | .init => 0 | .tick elapsed => n + elapsed.toNat) 0

/-- The timer and the last reading of `mtime`. -/
structure Clock where
  timer : State
  mtime : BitVec 64

def Clock.boot (t : State) (tickRateHz coreFrequencyHz timerCounterHz : Word) (now : BitVec 64) : Clock :=
  ⟨init t tickRateHz coreFrequencyHz timerCounterHz now, now⟩

/-- A call of `handle_isr` that reads `now`. -/
def Clock.serve (c : Clock) (now : BitVec 64) : Clock := ⟨handleIsr c.timer now, now⟩

namespace Clock

/-- The interrupt is taken when `mtime` has reached `mtimecmp`, however late. -/
def Due (c : Clock) (now : BitVec 64) : Prop := c.mtime ≤ now ∧ c.timer.mtimecmp ≤ now

/-- The call comes before the deadline after the one it serves. -/
def InTime (c : Clock) (now : BitVec 64) : Prop :=
  now < c.timer.nextTickMtime + c.timer.periodCycles.setWidth 64

/-- The counter is not at its end. -/
def Below (c : Clock) (now : BitVec 64) : Prop := now.toNat + c.timer.periodCycles.toNat < 2^64

instance (c : Clock) (now : BitVec 64) : Decidable (Due c now) := inferInstanceAs (Decidable (_ ∧ _))

instance (c : Clock) (now : BitVec 64) : Decidable (InTime c now) := inferInstanceAs (Decidable (_ < _))

instance (c : Clock) (now : BitVec 64) : Decidable (Below c now) := inferInstanceAs (Decidable (_ < _))

end Clock

section Isr
variable (t : State) (now : BitVec 64)

theorem handleIsr_periodCycles : (handleIsr t now).periodCycles = t.periodCycles := rfl

theorem handleIsr_compare : (handleIsr t now).mtimecmp = (handleIsr t now).nextTickMtime :=
  mtimecmp_writeMtimecmp t _

theorem fed_handleIsr : fed (handleIsr t now).service = fed t.service + 1 := by
  simp [handleIsr, armNextTick, writeMtimecmp, fed]

theorem toNat_period : (t.periodCycles.setWidth 64).toNat = t.periodCycles.toNat :=
  BitVec.toNat_setWidth_of_le (by decide)

variable {t now}

/-- The deadline of a call in time, which does not wrap. -/
theorem handleIsr_in_time (hd : t.nextTickMtime ≤ now) (h : now < t.nextTickMtime + t.periodCycles.setWidth 64) :
    (handleIsr t now).nextTickMtime.toNat = t.nextTickMtime.toNat + t.periodCycles.toNat := by
  have hn : (handleIsr t now).nextTickMtime = t.nextTickMtime + t.periodCycles.setWidth 64 :=
    if_neg (BitVec.not_le.mpr h)
  have hp := toNat_period t
  rw [hn]
  rw [BitVec.lt_def, BitVec.toNat_add, hp] at h
  rw [BitVec.le_def] at hd
  rw [BitVec.toNat_add, hp]
  omega

/-- Away from the end of the counter the deadline is rearmed as a natural
number. -/
theorem handleIsr_rearm (hd : t.nextTickMtime ≤ now) (hb : now.toNat + t.periodCycles.toNat < 2^64) :
    (handleIsr t now).nextTickMtime.toNat =
      Deadline.rearm t.periodCycles.toNat t.nextTickMtime.toNat now.toNat := by
  have hp := toNat_period t
  have hd' : t.nextTickMtime.toNat ≤ now.toNat := hd
  have hnext : (t.nextTickMtime + t.periodCycles.setWidth 64).toNat = t.nextTickMtime.toNat + t.periodCycles.toNat := by
    rw [BitVec.toNat_add, hp, Nat.mod_eq_of_lt (by omega)]
  have hnow : (now + t.periodCycles.setWidth 64).toNat = now.toNat + t.periodCycles.toNat := by
    rw [BitVec.toNat_add, hp, Nat.mod_eq_of_lt hb]
  have hn : (handleIsr t now).nextTickMtime = if t.nextTickMtime + t.periodCycles.setWidth 64 ≤ now then
      now + t.periodCycles.setWidth 64 else t.nextTickMtime + t.periodCycles.setWidth 64 := rfl
  simp only [hn, Deadline.rearm, apply_ite BitVec.toNat, hnext, hnow, BitVec.le_def]

end Isr

namespace Clock
variable {c : Clock} {now : BitVec 64}

/-- What every call keeps: the period, and a compare register that holds the
deadline. -/
structure Compares (c : Clock) (period : Word) : Prop where
  cycles : c.timer.periodCycles = period
  compare : c.timer.mtimecmp = c.timer.nextTickMtime

theorem Compares.serve {period : Word} (h : Compares c period) (now : BitVec 64) : Compares (c.serve now) period :=
  ⟨(handleIsr_periodCycles c.timer now).trans h.cycles, handleIsr_compare c.timer now⟩

/-- A rate that gives a period of at least one count is not refused. -/
theorem boot_armed (t : State) {tick core counter : Word} (hcore : core ≠ 0) (hp : 1 ≤ counter / tick)
    (now : BitVec 64) :
    Armed (boot t tick core counter now).timer (counter / tick) now ∧
      fed (boot t tick core counter now).timer.service = 0 := by
  have hpos : 1 ≤ counter.toNat / tick.toNat := by
    rw [← BitVec.toNat_udiv]
    exact hp
  have htick : tick ≠ 0 := by
    rintro rfl
    exact absurd hpos (by simp)
  have hcounter : counter ≠ 0 := by
    rintro rfl
    exact absurd hpos (by simp)
  refine ⟨(init_armed t htick hcore hcounter now).1, ?_⟩
  have hs : (boot t tick core counter now).timer.service = t.service ++ [.init] := by
    simp only [boot, init, htick, hcore, hcounter, or_self, if_false]
    rfl
  rw [hs, fed, List.foldl_append]
  rfl

theorem Compares.boot (t : State) {tick core counter : Word} (hcore : core ≠ 0) (hp : 1 ≤ counter / tick)
    (now : BitVec 64) : Compares (boot t tick core counter now) (counter / tick) := by
  obtain ⟨harmed, -⟩ := boot_armed t hcore hp now
  exact ⟨harmed.cycles, harmed.compare⟩

/-- The deadline is ahead of every call, by one period at most, and moves on by
the period with every call that comes in time. -/
theorem deadline_ahead (t : State) (tick core counter : Word) (hcore : core ≠ 0) (hp : 1 ≤ counter / tick)
    (t0 : BitVec 64) (nows : List (BitVec 64)) (now : BitVec 64)
    (h : Along serve (fun c now => Due c now ∧ Below c now) (boot t tick core counter t0) (nows ++ [now])) :
    let before := run serve (boot t tick core counter t0) nows
    let after := before.serve now
    let period := (counter / tick).toNat
    after.timer.mtimecmp = after.timer.nextTickMtime ∧ now < after.timer.nextTickMtime ∧
      after.timer.nextTickMtime.toNat ≤ now.toNat + period ∧
      (now.toNat < before.timer.nextTickMtime.toNat + period →
        after.timer.nextTickMtime.toNat = before.timer.nextTickMtime.toNat + period) := by
  intro before after period
  have keep (c : Clock) (now : BitVec 64) (hc : Compares c (counter / tick)) : Compares (c.serve now) (counter / tick) :=
    hc.serve now
  have hbefore : Compares before (counter / tick) := run_invariant keep (.boot t hcore hp t0) nows
  obtain ⟨-, ⟨⟨-, hdue⟩, hbelow⟩, -⟩ := along_append.mp h
  have hdue : before.timer.nextTickMtime ≤ now := hbefore.compare ▸ hdue
  have hnext := handleIsr_rearm hdue hbelow
  rw [hbefore.cycles] at hnext
  refine ⟨handleIsr_compare _ _, ?_, ?_, ?_⟩
  · rw [BitVec.lt_def]
    exact lt_of_lt_of_eq (Deadline.lt_rearm hp) hnext.symm
  · exact hnext.trans_le (Deadline.rearm_le hdue)
  · intro hl
    exact hnext.trans (Deadline.rearm_of_lt hl)

theorem deadline_ahead_late_call :
    let before := boot (atReset 0 0 0 0) 1000 600000000 10000 7
    (before.serve 59).timer.nextTickMtime.toNat = 69 ∧ 59 < (before.serve 59).timer.nextTickMtime :=
  ⟨by decide, (deadline_ahead (atReset 0 0 0 0) 1000 600000000 10000 (by decide) (by decide) 7 [] 59 (by decide)).2.1⟩

variable {t0 : BitVec 64} {period : Word}

/-- The service has counted the deadlines that have passed, from `t0` on. -/
structure Accounted (t0 : BitVec 64) (period : Word) (c : Clock) : Prop extends Compares c period where
  next : c.timer.nextTickMtime.toNat = t0.toNat + (fed c.timer.service + 1) * period.toNat

/-- It has missed one. -/
structure Behind (t0 : BitVec 64) (period : Word) (c : Clock) : Prop extends Compares c period where
  next : t0.toNat + (fed c.timer.service + 2) * period.toNat ≤ c.timer.nextTickMtime.toNat
  lag : fed c.timer.service < (c.mtime.toNat - t0.toNat) / period.toNat

theorem Accounted.boot (t : State) {tick core counter : Word} (hcore : core ≠ 0) (hp : 1 ≤ counter / tick)
    (hw : t0.toNat + (counter / tick).toNat < 2^64) :
    Accounted t0 (counter / tick) (boot t tick core counter t0) := by
  obtain ⟨harmed, hfed⟩ := boot_armed t hcore hp t0
  refine ⟨.boot t hcore hp t0, ?_⟩
  rw [harmed.next, hfed, BitVec.toNat_add, BitVec.toNat_setWidth_of_le (by decide), Nat.mod_eq_of_lt hw]
  omega

/-- A call in time is on the grid and counts. -/
theorem Accounted.serve_in_time (h : Accounted t0 period c) (hp : 1 ≤ period) (hd : Due c now) (hi : InTime c now) :
    Accounted t0 period (c.serve now) ∧
      fed (c.serve now).timer.service = (now.toNat - t0.toNat) / period.toNat := by
  have hdue : c.timer.nextTickMtime ≤ now := h.compare ▸ hd.2
  have hnext := handleIsr_in_time hdue hi
  have hlt : now < (handleIsr c.timer now).nextTickMtime := by
    rwa [show (handleIsr c.timer now).nextTickMtime = c.timer.nextTickMtime + c.timer.periodCycles.setWidth 64 from
      if_neg (BitVec.not_le.mpr hi)]
  rw [BitVec.lt_def, hnext] at hlt
  rw [h.cycles] at hnext hlt
  have hfed : fed (c.serve now).timer.service = fed c.timer.service + 1 := fed_handleIsr c.timer now
  refine ⟨⟨h.toCompares.serve now, ?_⟩, ?_⟩
  · rw [hfed, Nat.succ_mul _ period.toNat, ← Nat.add_assoc, ← h.next]
    exact hnext
  · rw [hfed, Deadline.div_eq_of_in_time hp h.next hdue hlt]

/-- A late call falls behind, and no later call makes up for it. -/
theorem Accounted.serve_late (h : Accounted t0 period c) (hp : 1 ≤ period) (hd : Due c now) (hb : Below c now)
    (hi : ¬ InTime c now) : Behind t0 period (c.serve now) := by
  have hdue : c.timer.nextTickMtime ≤ now := h.compare ▸ hd.2
  have hnext := handleIsr_rearm hdue hb
  have hlate : c.timer.nextTickMtime.toNat + period.toNat ≤ now.toNat := by
    have hb : now.toNat + period.toNat < 2^64 := h.cycles ▸ hb
    have hdue : c.timer.nextTickMtime.toNat ≤ now.toNat := hdue
    rw [InTime, BitVec.not_lt, BitVec.le_def, BitVec.toNat_add, toNat_period, h.cycles,
      Nat.mod_eq_of_lt (by omega)] at hi
    exact hi
  have hfed : fed (c.serve now).timer.service = fed c.timer.service + 1 := fed_handleIsr c.timer now
  rw [h.cycles, Deadline.rearm, if_pos hlate] at hnext
  refine ⟨h.toCompares.serve now, ?_, ?_⟩
  · refine le_of_le_of_eq ?_ hnext.symm
    rw [hfed, Nat.succ_mul (_ + 1), ← Nat.add_assoc, Nat.succ_mul (_ + 1), ← Nat.add_assoc, ← h.next]
    omega
  · rw [hfed]
    exact Deadline.lt_div_of_late hp h.next hlate

theorem Behind.serve (h : Behind t0 period c) (hp : 1 ≤ period) (hd : Due c now) (hb : Below c now) :
    Behind t0 period (c.serve now) := by
  have hdue : c.timer.nextTickMtime ≤ now := h.compare ▸ hd.2
  have hnext := handleIsr_rearm hdue hb
  have hfed : fed (c.serve now).timer.service = fed c.timer.service + 1 := fed_handleIsr c.timer now
  have hmoved : c.timer.nextTickMtime.toNat + period.toNat ≤ (c.serve now).timer.nextTickMtime.toNat := by
    refine le_of_le_of_eq ?_ hnext.symm
    rw [h.cycles]
    exact Deadline.le_rearm
  refine ⟨h.toCompares.serve now, ?_, ?_⟩
  · have := h.next
    rw [hfed, Nat.add_right_comm, Nat.succ_mul]
    omega
  · have hn := h.next
    have hdue : c.timer.nextTickMtime.toNat ≤ now.toNat := hdue
    have hpast : (fed c.timer.service + 2) * period.toNat ≤ now.toNat - t0.toNat := by omega
    rw [hfed]
    exact (Nat.le_div_iff_mul_le hp).mpr hpast

theorem Accounted.run_in_time (h : Accounted t0 period c) (hp : 1 ≤ period) {nows : List (BitVec 64)}
    (ha : Along serve (fun c now => Due c now ∧ InTime c now) c nows) : Accounted t0 period (run serve c nows) := by
  have keep (c : Clock) (now : BitVec 64) (hc : Accounted t0 period c) (hn : Due c now ∧ InTime c now) :
      Accounted t0 period (c.serve now) := (hc.serve_in_time hp hn.1 hn.2).1
  exact run_invariant_along keep h ha

/-- A run is in time throughout, or it is behind at its end. -/
theorem Accounted.run_cases (h : Accounted t0 period c) (hp : 1 ≤ period) {nows : List (BitVec 64)}
    (ha : Along serve (fun c now => Due c now ∧ Below c now) c nows) :
    Along serve InTime c nows ∨ Behind t0 period (run serve c nows) := by
  induction nows generalizing c with
  | nil => exact .inl trivial
  | cons now nows ih =>
    obtain ⟨⟨hd, hb⟩, ha⟩ := ha
    by_cases hi : InTime c now
    · exact (ih (h.serve_in_time hp hd hi).1 ha).imp_left fun hrest => ⟨hi, hrest⟩
    · have keep (c : Clock) (now : BitVec 64) (hc : Behind t0 period c) (hn : Due c now ∧ Below c now) :
          Behind t0 period (c.serve now) := hc.serve hp hn.1 hn.2
      exact .inr (run_invariant_along keep (h.serve_late hp hd hb hi) ha)

/-- A first call in time, or below the end of the counter, tells that the first
deadline did not wrap. -/
theorem boot_fits (t : State) {tick core counter : Word} (hcore : core ≠ 0) (hp : 1 ≤ counter / tick)
    (hd : Due (boot t tick core counter t0) now)
    (h : InTime (boot t tick core counter t0) now ∨ Below (boot t tick core counter t0) now) :
    t0.toNat + (counter / tick).toNat < 2^64 := by
  obtain ⟨harmed, -⟩ := boot_armed t hcore hp t0
  have ht : t0.toNat ≤ now.toNat := hd.1
  rcases h with h | h
  · have h64 : ((counter / tick).setWidth 64).toNat = (counter / tick).toNat :=
      BitVec.toNat_setWidth_of_le (by decide)
    have hsmall := (counter / tick).isLt
    rw [InTime, harmed.next, harmed.cycles, BitVec.lt_def, BitVec.toNat_add, BitVec.toNat_add, h64] at h
    omega
  · have hb : now.toNat + (counter / tick).toNat < 2^64 := harmed.cycles ▸ h
    omega

/-- Ticks count the time, and the next deadline is on the grid, after every run
of calls in time; away from the end of the counter after no other run. -/
theorem ticks_account_for_time (t : State) (tick core counter : Word) (hcore : core ≠ 0) (hp : 1 ≤ counter / tick)
    (t0 : BitVec 64) (nows : List (BitVec 64)) (now : BitVec 64)
    (hd : Along serve Due (boot t tick core counter t0) (nows ++ [now])) :
    let start := boot t tick core counter t0
    let after := run serve start (nows ++ [now])
    let period := (counter / tick).toNat
    let Counts := fed after.timer.service = (now.toNat - t0.toNat) / period ∧
      ∃ k, after.timer.mtimecmp.toNat = t0.toNat + k * period
    (Along serve InTime start (nows ++ [now]) → Counts) ∧
      (Along serve Below start (nows ++ [now]) → (Counts ↔ Along serve InTime start (nows ++ [now]))) := by
  intro start after period Counts
  obtain ⟨first, rest, hfirst⟩ := List.exists_cons_of_ne_nil (List.concat_ne_nil now nows)
  have hdue : Due start first := by
    rw [hfirst] at hd
    exact hd.1
  have enough (hi : Along serve InTime start (nows ++ [now])) : Counts := by
    have hit : InTime start first := by
      rw [hfirst] at hi
      exact hi.1
    have hboot : Accounted t0 (counter / tick) start := .boot t hcore hp (boot_fits t hcore hp hdue (.inl hit))
    obtain ⟨hbefore, ⟨hlast, hlastIn⟩, -⟩ := along_append.mp (hd.and hi)
    obtain ⟨hafter, hcount⟩ := (hboot.run_in_time hp hbefore).serve_in_time hp hlast hlastIn
    have hrun : after = (run serve start nows).serve now := run_append serve start nows [now]
    rw [← hrun] at hafter hcount
    exact ⟨hcount, _, hafter.compare ▸ hafter.next⟩
  refine ⟨enough, fun hb => ⟨fun hcounts => ?_, enough⟩⟩
  have hbelow : Below start first := by
    rw [hfirst] at hb
    exact hb.1
  have hboot : Accounted t0 (counter / tick) start := .boot t hcore hp (boot_fits t hcore hp hdue (.inr hbelow))
  rcases hboot.run_cases hp (hd.and hb) with hi | hbehind
  · exact hi
  · have hlag := hbehind.lag
    have hm : (run serve start (nows ++ [now])).mtime = now := by
      rw [run_append]
      rfl
    rw [hm] at hlag
    exact absurd hcounts.1 (Nat.ne_of_lt hlag)

/-- A period of ten counts, and two calls after a little latency each. -/
theorem ticks_account_for_latency :
    let after := run serve (boot (atReset 0 0 0 0) 1000 600000000 10000 0) [13, 29]
    fed after.timer.service = 2 ∧ ∃ k, after.timer.mtimecmp.toNat = 0 + k * 10 :=
  (ticks_account_for_time (atReset 0 0 0 0) 1000 600000000 10000 (by decide) (by decide) 0 [13] 29 (by decide)).1
    (by decide)

/-- The same with interrupts masked for longer than a period. -/
theorem late_call_loses_ticks :
    let start := boot (atReset 0 0 0 0) 1000 600000000 10000 0
    let after := run serve start [35]
    Along serve Due start [35] ∧ fed after.timer.service = 1 ∧ (35 - 0) / 10 = 3 ∧
      ∀ k, after.timer.mtimecmp.toNat ≠ 0 + k * 10 := by
  intro start after
  have hm : after.timer.mtimecmp.toNat = 45 := by decide
  refine ⟨by decide, by decide, rfl, ?_⟩
  intro k
  omega

end Clock
end IoProcessor.Hal.HardwareTimer
