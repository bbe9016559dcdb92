import IoProcessor.Hal.BootStatus
import IoProcessor.Hal.HardwareTimer
import IoProcessor.Hal.Msgbox

/-! The boot handshake of hal_boot.hpp: the firmware reads its clocks, arms the
timer, publishes a status record and rings the doorbell, and the shorter path
of HardwareTimer that the documentation names. -/
namespace IoProcessor.Hal.Boot
open Library MemoryMap Clocking HardwareTimer

def firmwareReadyDoorbell : Word := 0xA1
def firmwareInitFailedDoorbell : Word := 0xA2

/-- What Linux can observe, in order. -/
inductive Output where
  | published (status : Status)
  | written (register value : Word)

structure Firmware where
  ram : Memory
  timer : HardwareTimer.State
  log : List Output

def Firmware.publish (f : Firmware) (status : Status) : Firmware :=
  { f with ram := Boot.publish f.ram status, log := f.log ++ [.published status] }

/-- The handshake only writes registers. -/
def bus : Msgbox.Mmio Firmware where
  read f _ := (0, f)
  write f register value := { f with log := f.log ++ [.written register value] }
  store f a v := { f with ram := f.ram.store32 a v }

/-- The write that reaches Linux as a mailbox message. -/
def doorbell (message : Word) : Output := .written (Msgbox.reg msgboxBase Msgbox.msgQueue 0 0) message

def initializeFromLinuxClockConfiguration (f : Firmware) (timerTickHz : Word) (now : BitVec 64) : Bool × Firmware :=
  let configuration := readSharedConfiguration f.ram
  let statusGeneration := if configuration.generation = 0 then 1 else configuration.generation
  if !configuration.isValid then
    let f := f.publish (makeStatus .initFailed .clockConfigurationInvalid statusGeneration 0 0)
    (false, Msgbox.ringDoorbellToLinux bus f firmwareInitFailedDoorbell)
  else if timerTickHz = 0 ∨ configuration.timerCounterHz < timerTickHz then
    let f := f.publish (makeStatus .initFailed .timerConfigurationInvalid statusGeneration
      configuration.generation configuration.riscvCoreHz)
    (false, Msgbox.ringDoorbellToLinux bus f firmwareInitFailedDoorbell)
  else
    let f := { f with
      timer := HardwareTimer.init f.timer timerTickHz configuration.riscvCoreHz configuration.timerCounterHz now }
    let f := f.publish (makeStatus .ready .none statusGeneration configuration.generation configuration.riscvCoreHz)
    (true, Msgbox.ringDoorbellToLinux bus f firmwareReadyDoorbell)

namespace Status

def failureReason (s : Status) : Word := s 5
def clockConfigurationGeneration (s : Status) : Word := s 6

end Status

theorem makeStatus_isValid (state : BootState) (reason : FailureReason) {generation : Word} (h : generation ≠ 0)
    (clockGeneration coreHz : Word) : (makeStatus state reason generation clockGeneration coreHz).isValid = true := by
  have hs : state.toWord ≤ BootState.crashed.toWord := by cases state <;> decide
  simpa [Status.isValid, makeStatus, Status.magic, Status.abiVersion, Status.sizeBytes, Status.generation,
    Status.state, hs] using h

/-- What one exit of the handshake leaves behind. -/
def Reports (f : Firmware) (status : Status) (bell : Word) (g : Firmware) : Prop :=
  g.log = f.log ++ [.published status, doorbell bell] ∧ g.ram = Boot.publish f.ram status ∧ status.isValid = true

/-- The three exits. -/
theorem initialize_cases (f : Firmware) (tick : Word) (now : BitVec 64) :
    let c := readSharedConfiguration f.ram
    let r := initializeFromLinuxClockConfiguration f tick now
    (c.isValid = false ∧ r.1 = false ∧ r.2.timer = f.timer ∧
      ∃ g ≠ 0, Reports f (makeStatus .initFailed .clockConfigurationInvalid g 0 0) firmwareInitFailedDoorbell r.2) ∨
    (c.isValid = true ∧ (tick = 0 ∨ c.timerCounterHz < tick) ∧ r.1 = false ∧ r.2.timer = f.timer ∧
      Reports f (makeStatus .initFailed .timerConfigurationInvalid c.generation c.generation c.riscvCoreHz)
        firmwareInitFailedDoorbell r.2) ∨
    (c.isValid = true ∧ tick ≠ 0 ∧ tick ≤ c.timerCounterHz ∧ r.1 = true ∧
      r.2.timer = HardwareTimer.init f.timer tick c.riscvCoreHz c.timerCounterHz now ∧
      Reports f (makeStatus .ready .none c.generation c.generation c.riscvCoreHz) firmwareReadyDoorbell r.2) := by
  have hgen (g : Word) : (if g = 0 then 1 else g) ≠ 0 := by
    split
    · decide
    · assumption
  have hreport (f : Firmware) {status : Status} (hs : status.isValid = true) (bell : Word) :
      Reports f status bell (Msgbox.ringDoorbellToLinux bus (f.publish status) bell) :=
    ⟨by simp [Msgbox.ringDoorbellToLinux, bus, Firmware.publish, doorbell], rfl, hs⟩
  simp only [initializeFromLinuxClockConfiguration]
  generalize readSharedConfiguration f.ram = c
  cases hv : c.isValid with
  | false =>
    simp only [Bool.not_false, if_true]
    exact .inl ⟨trivial, trivial, rfl, _, hgen _, hreport f (makeStatus_isValid _ _ (hgen _) _ _) _⟩
  | true =>
    have hg : c.generation ≠ 0 := ((ClockConfiguration.isValid_iff c).mp hv).2.2.2.1
    simp only [Bool.not_true, Bool.false_eq_true, if_false, if_neg hg]
    refine .inr ?_
    by_cases ht : tick = 0 ∨ c.timerCounterHz < tick
    · rw [if_pos ht]
      exact .inl ⟨trivial, ht, rfl, rfl, hreport f (makeStatus_isValid _ _ hg _ _) _⟩
    · rw [if_neg ht]
      rw [not_or, BitVec.not_lt] at ht
      refine .inr ⟨trivial, ht.1, ht.2, rfl, rfl, ?_⟩
      exact hreport _ (makeStatus_isValid _ _ hg _ _) _

/-- The record that the handshake publishes. -/
def handshakeStatus (c : ClockConfiguration) (tick : Word) : Status :=
  let generation := if c.generation = 0 then 1 else c.generation
  if !c.isValid then makeStatus .initFailed .clockConfigurationInvalid generation 0 0
  else if tick = 0 ∨ c.timerCounterHz < tick then
    makeStatus .initFailed .timerConfigurationInvalid generation c.generation c.riscvCoreHz
  else makeStatus .ready .none generation c.generation c.riscvCoreHz

theorem initialize_publishes (f : Firmware) (tick : Word) (now : BitVec 64) :
    (initializeFromLinuxClockConfiguration f tick now).2.ram =
      Boot.publish f.ram (handshakeStatus (readSharedConfiguration f.ram) tick) := by
  simp only [initializeFromLinuxClockConfiguration, handshakeStatus]
  split
  · rfl
  · split <;> rfl

/-- The timer interrupts with a period of at least one count, and both
frequencies are those of the configuration. -/
structure Ticking (t : HardwareTimer.State) (c : ClockConfiguration) (tick : Word) (now : BitVec 64) : Prop where
  armed : Armed t (c.timerCounterHz / tick) now
  period : (c.timerCounterHz / tick).toNat = c.timerCounterHz.toNat / tick.toNat ∧ 1 ≤ t.periodCycles
  core : t.coreFrequencyHz = c.riscvCoreHz ∧ t.coreFrequencyHz ≠ 0
  counter : t.timerCounterHz = c.timerCounterHz ∧ t.timerCounterHz ≠ 0

theorem init_ticking {c : ClockConfiguration} (hv : c.isValid = true) {tick : Word} (ht : tick ≠ 0)
    (hle : tick ≤ c.timerCounterHz) (t : HardwareTimer.State) (now : BitVec 64) :
    Ticking (HardwareTimer.init t tick c.riscvCoreHz c.timerCounterHz now) c tick now := by
  obtain ⟨-, -, -, -, hcore, hcounter⟩ := (ClockConfiguration.isValid_iff c).mp hv
  obtain ⟨harmed, hc, hh⟩ := init_armed t ht hcore hcounter now
  refine ⟨harmed, ⟨BitVec.toNat_udiv, ?_⟩, ⟨hc, by rwa [hc]⟩, hh, by rwa [hh]⟩
  rw [harmed.cycles, BitVec.le_def, BitVec.toNat_udiv]
  have hpos : 0 < tick.toNat := Nat.pos_of_ne_zero fun h => ht (BitVec.eq_of_toNat_eq h)
  exact Nat.div_pos hle hpos

theorem initialize_eq_true_iff (f : Firmware) (tick : Word) (now : BitVec 64) :
    (initializeFromLinuxClockConfiguration f tick now).1 = true ↔
      (readSharedConfiguration f.ram).isValid = true ∧ tick ≠ 0 ∧
        tick ≤ (readSharedConfiguration f.ram).timerCounterHz := by
  rcases initialize_cases f tick now with ⟨hv, hr, -⟩ | ⟨-, htick, hr, -⟩ | ⟨hv, h0, hle, hr, -⟩
  · simp [hr, hv]
  · refine iff_of_false (by simp [hr]) ?_
    rintro ⟨-, h0, hle⟩
    exact htick.elim h0 (BitVec.not_lt.mpr hle)
  · exact iff_of_true hr ⟨hv, h0, hle⟩

/-- The record, the doorbell, the returned value and the timer agree, for every
content of the clock block and every tick rate. -/
theorem handshake_truthful (f : Firmware) (tick : Word) (now : BitVec 64) :
    let c := readSharedConfiguration f.ram
    let r := initializeFromLinuxClockConfiguration f tick now
    (r.1 = true ↔ c.isValid = true ∧ tick ≠ 0 ∧ tick ≤ c.timerCounterHz) ∧
    ∃ status bell, Reports f status bell r.2 ∧
      (r.1 = true → status.state = BootState.ready.toWord ∧ status.failureReason = FailureReason.none.toWord ∧
        bell = firmwareReadyDoorbell ∧ status.generation = c.generation ∧
        status.clockConfigurationGeneration = c.generation ∧ Ticking r.2.timer c tick now) ∧
      (r.1 = false → status.state = BootState.initFailed.toWord ∧ bell = firmwareInitFailedDoorbell ∧
        status.failureReason = (if c.isValid then FailureReason.timerConfigurationInvalid
          else FailureReason.clockConfigurationInvalid).toWord ∧
        r.2.timer = f.timer) := by
  intro c r
  refine ⟨initialize_eq_true_iff f tick now, ?_⟩
  rcases initialize_cases f tick now with ⟨hv, hr, ht, g, hg, hrep⟩ | ⟨hv, htick, hr, ht, hrep⟩ |
    ⟨hv, h0, hle, hr, ht, hrep⟩
  · have hv : c.isValid = false := hv
    have hr : r.1 = false := hr
    refine ⟨_, _, hrep, by simp [hr], fun _ => ⟨rfl, rfl, ?_, ht⟩⟩
    rw [hv]
    rfl
  · have hv : c.isValid = true := hv
    have hr : r.1 = false := hr
    refine ⟨_, _, hrep, by simp [hr], fun _ => ⟨rfl, rfl, ?_, ht⟩⟩
    rw [hv]
    rfl
  · have hr : r.1 = true := hr
    refine ⟨_, _, hrep, fun _ => ⟨rfl, rfl, rfl, rfl, rfl, ?_⟩, by simp [hr]⟩
    rw [ht]
    exact init_ticking hv h0 hle f.timer now

/-- Both paths return the same, leave the same timer, and return true only with
a timer that is armed. -/
def PathsAgree (f : Firmware) (tick : Word) (now : BitVec 64) : Prop :=
  let shared := initFromSharedClockConfiguration f.ram f.timer tick now
  let handshake := initializeFromLinuxClockConfiguration f tick now
  (shared.1 = true ↔ handshake.1 = true) ∧ shared.2 = handshake.2.timer ∧
    (shared.1 = true → ∃ period, 1 ≤ period ∧ Armed shared.2 period now) ∧
    (handshake.1 = true → ∃ period, 1 ≤ period ∧ Armed handshake.2.timer period now)

/-- They do exactly where a valid configuration comes with a tick rate that the
counter can give: only one of the two tests it. -/
theorem paths_agree_iff (f : Firmware) (tick : Word) (now : BitVec 64) :
    PathsAgree f tick now ↔ ((readSharedConfiguration f.ram).isValid = true →
      tick ≠ 0 ∧ tick ≤ (readSharedConfiguration f.ram).timerCounterHz) := by
  have hshared : initFromSharedClockConfiguration f.ram f.timer tick now =
      if (readSharedConfiguration f.ram).isValid then
        (true, HardwareTimer.init f.timer tick (readSharedConfiguration f.ram).riscvCoreHz
          (readSharedConfiguration f.ram).timerCounterHz now)
      else (false, f.timer) := by
    unfold initFromSharedClockConfiguration
    cases hv : (readSharedConfiguration f.ram).isValid <;> simp [hv]
  rw [PathsAgree, hshared]
  rcases initialize_cases f tick now with ⟨hv, hr, ht, -⟩ | ⟨hv, htick, hr, -⟩ | ⟨hv, h0, hle, hr, ht, -⟩
  · simp [hv, hr, ht]
  · refine iff_of_false (fun h => ?_) fun h => ?_
    · have := h.1
      simp [hv, hr] at this
    · exact htick.elim (h hv).1 (BitVec.not_lt.mpr (h hv).2)
  · refine iff_of_true ?_ fun _ => ⟨h0, hle⟩
    have htick := init_ticking hv h0 hle f.timer now
    have harmed : ∃ period, 1 ≤ period ∧ Armed (HardwareTimer.init f.timer tick
        (readSharedConfiguration f.ram).riscvCoreHz (readSharedConfiguration f.ram).timerCounterHz now) period now :=
      ⟨_, htick.armed.cycles ▸ htick.period.2, htick.armed⟩
    simp only [hv, if_true, hr, ht]
    exact ⟨trivial, trivial, fun _ => harmed, fun _ => harmed⟩

/-- 600 MHz core and 24 MHz counter, as the host tool packs them. -/
private def clockBlock : Memory :=
  Memory.store (fun _ => 0) ipcClockConfigAddr
    (([0x4B4C4343, 1, 64, 7, 600000000, 24000000] : List Word).flatMap (Memory.littleEndian 4))

private def booting : Firmware := ⟨clockBlock, atReset 0 0 0 0, []⟩

/-- A tick rate of zero arms nothing and one above the counter's rate arms a
period of zero; the shorter path returns true for both. -/
theorem shared_path_returns_true_unarmed :
    let zero := initFromSharedClockConfiguration booting.ram booting.timer 0 0
    let fast := initFromSharedClockConfiguration booting.ram booting.timer 24000001 0
    (zero.1 = true ∧ zero.2.mie = 0 ∧ zero.2.mtimecmp = 0) ∧ (fast.1 = true ∧ fast.2.periodCycles = 0) ∧
      ¬ PathsAgree booting 0 0 ∧ ¬ PathsAgree booting 24000001 0 := by
  refine ⟨by decide, by decide, fun h => ?_, fun h => ?_⟩
  · exact absurd (h.1.mp (by decide)) (by decide)
  · exact absurd (h.1.mp (by decide)) (by decide)

end IoProcessor.Hal.Boot
