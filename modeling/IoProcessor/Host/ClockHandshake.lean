import IoProcessor.Host.WaitReady

/-! A boot from end to end: the host writes a clock configuration, starts the
firmware and waits for its record. What comes back is what was written. -/
namespace IoProcessor.Host
open Library Struct Hal MemoryMap Clocking Boot Memory

/-- The first of the two writes, with no generation, and the second, which
commits it. -/
def staged (config : ClockConfiguration) : Write :=
  ⟨0, ((config.values false).map (BitVec.ofInt 32)).flatMap (littleEndian 4)⟩

def commit (config : ClockConfiguration) : Write :=
  ⟨generationOffset, littleEndian 4 (BitVec.ofInt 32 config.generation)⟩

/-- What the host is to learn about a configuration that it has written. -/
def answer (config : ClockConfiguration) (tick : Word) (k : Nat) : Verdict :=
  let (generation, hz) := (config.generation.toNat, config.riscvCoreHz.toNat)
  if tick = 0 ∨ config.timerCounterHz < tick.toNat then
    .failed k ⟨bootMagic, abiVersion, abiSize, generation, 3, 2, generation, hz, 0, 0, 0⟩
  else .ready k ⟨bootMagic, abiVersion, abiSize, generation, 2, 0, generation, hz, 0, 0, 0⟩

/-- A configuration that is not committed. -/
def refused (k : Nat) : Verdict := .failed k ⟨bootMagic, abiVersion, abiSize, 1, 3, 1, 0, 0, 0, 0, 0⟩

section
variable {config : ClockConfiguration} {m : Memory}

/-- The clock block is apart from the status window. -/
theorem snapshot_write (w : Write) (hw : w.offset + w.bytes.length ≤ 64) : snapshot (w.apply m) = snapshot m := by
  funext i
  have hi := statusWordAddr_toNat i
  have hbase : ipcClockConfigAddr.toNat = 0x07131000 := rfl
  have haddr : (ipcClockConfigAddr + BitVec.ofNat 32 w.offset).toNat = 0x07131000 + w.offset := by
    rw [toNat_add_small (by omega), hbase]
  exact load32_store_outside (by omega) (by omega) (by omega)

theorem snapshot_staged : snapshot ((staged config).apply m) = snapshot m := by
  refine snapshot_write _ ?_
  simp [staged, ClockConfiguration.values]

theorem snapshot_commit : snapshot ((commit config).apply m) = snapshot m := by
  refine snapshot_write _ ?_
  rw [commit, littleEndian_length]
  exact (by decide : generationOffset + 4 ≤ 64)

theorem read_staged : readSharedConfiguration ((staged config).apply m) =
    fun i : Fin 16 => BitVec.ofInt 32 ((config.values false).getD i 0) := by
  have haddr : ipcClockConfigAddr + BitVec.ofNat 32 0 = ipcClockConfigAddr := by decide
  rw [staged, Write.apply, haddr]
  exact readSharedConfiguration_store m rfl

theorem read_committed : readSharedConfiguration ((commit config).apply ((staged config).apply m)) =
    Function.update (fun i : Fin 16 => BitVec.ofInt 32 ((config.values false).getD i 0)) 3
      (BitVec.ofInt 32 config.generation) := by
  rw [commit, readSharedConfiguration_commit, read_staged]

/-- Without a generation nothing is accepted. -/
theorem handshake_staged (tick : Word) :
    handshakeStatus (readSharedConfiguration ((staged config).apply m)) tick =
      makeStatus .initFailed .clockConfigurationInvalid 1 0 0 := by
  have hgeneration :
      Clocking.ClockConfiguration.generation (readSharedConfiguration ((staged config).apply m)) = 0 := by
    rw [read_staged]
    rfl
  have hinvalid : Clocking.ClockConfiguration.isValid (readSharedConfiguration ((staged config).apply m)) = false := by
    rw [Bool.eq_false_iff, ne_eq, Clocking.ClockConfiguration.isValid_iff]
    exact fun h => h.2.2.2.1 hgeneration
  rw [handshakeStatus, hinvalid, hgeneration]
  rfl

/-- The record that answers a committed configuration. -/
theorem handshake_committed (h : config.InRange) (tick : Word) :
    let (generation, hz) := (BitVec.ofInt 32 config.generation, BitVec.ofInt 32 config.riscvCoreHz)
    handshakeStatus (readSharedConfiguration ((commit config).apply ((staged config).apply m))) tick =
      if tick = 0 ∨ config.timerCounterHz < tick.toNat then
        makeStatus .initFailed .timerConfigurationInvalid generation generation hz
      else makeStatus .ready .none generation generation hz := by
  obtain ⟨hn, -⟩ := h
  simp only [List.forall_mem_cons] at hn
  obtain ⟨hgen, hcore, htimer, -⟩ := hn
  have hvalid : Clocking.ClockConfiguration.isValid
      (readSharedConfiguration ((commit config).apply ((staged config).apply m))) = true := by
    rw [read_committed, Clocking.ClockConfiguration.isValid_iff]
    exact ⟨rfl, rfl, rfl, ofInt_ne_zero hgen, ofInt_ne_zero hcore, ofInt_ne_zero htimer⟩
  have hslow : BitVec.ofInt 32 config.timerCounterHz < tick ↔ config.timerCounterHz < tick.toNat := by
    have hvalue := toNat_ofInt (v := config.timerCounterHz) (by omega)
    rw [BitVec.lt_def]
    omega
  have hcounter : Clocking.ClockConfiguration.timerCounterHz
      (readSharedConfiguration ((commit config).apply ((staged config).apply m))) =
        BitVec.ofInt 32 config.timerCounterHz := by
    rw [read_committed]
    rfl
  have hgeneration : Clocking.ClockConfiguration.generation
      (readSharedConfiguration ((commit config).apply ((staged config).apply m))) =
        BitVec.ofInt 32 config.generation := by
    rw [read_committed]
    rfl
  have hhz : Clocking.ClockConfiguration.riscvCoreHz
      (readSharedConfiguration ((commit config).apply ((staged config).apply m))) =
        BitVec.ofInt 32 config.riscvCoreHz := by
    rw [read_committed]
    rfl
  simp only [handshakeStatus, hvalid, hcounter, hgeneration, hhz, hslow, if_neg (ofInt_ne_zero hgen), Bool.not_true,
    Bool.false_eq_true, if_false]

/-- The verdict on that record. -/
theorem verdict_committed (h : config.InRange) (tick : Word) (k : Nat) :
    verdict k (handshakeStatus (readSharedConfiguration ((commit config).apply ((staged config).apply m))) tick) =
      answer config tick k := by
  have hnat {v : Int} (hv : 1 ≤ v ∧ v < 2^32) : (BitVec.ofInt 32 v).toNat = v.toNat := by
    have hvalue := toNat_ofInt (v := v) (by omega)
    omega
  rw [handshake_committed h]
  obtain ⟨hn, -⟩ := h
  simp only [List.forall_mem_cons] at hn
  obtain ⟨hgen, hcore, -, -⟩ := hn
  rw [answer, ← hnat hgen, ← hnat hcore]
  split <;> rfl

end

/-- A wait for the record of a firmware that finds this memory: nothing is
decided before the record is complete, and then its verdict is the given one. -/
def Answers (ram : Memory) (tick : Word) (polls : List (Nat × Bool)) (result : Nat → Verdict) : Prop :=
  let wait := waitForReady (window ram [handshakeStatus (readSharedConfiguration ram) tick]) 0 polls
  (wait = .timedOut ∧ ∀ j ∈ readings 0 polls, j < 16) ∨ ∃ j ∈ readings 0 polls, 16 ≤ j ∧ wait = result j

theorem answers_of_record {ram : Memory} {tick : Word} {state : BootState} {reason : FailureReason}
    {generation clockGeneration hz : Word}
    (hrecord : handshakeStatus (readSharedConfiguration ram) tick =
      makeStatus state reason generation clockGeneration hz)
    (hram : (snapshot ram).generation = 0) (hgeneration : generation ≠ 0)
    (hstate : state = .ready ∨ state = .initFailed)
    (polls : List (Nat × Bool)) :
    Answers ram tick polls fun j => verdict j (handshakeStatus (readSharedConfiguration ram) tick) := by
  refine waitForReady_record hram ?_ ?_ polls
  · rw [hrecord]
    exact makeStatus_isValid _ _ hgeneration _ _
  · have hword : (makeStatus state reason generation clockGeneration hz).state = state.toWord := rfl
    rw [hrecord, hword]
    rcases hstate with rfl | rfl <;> simp

/-- A boot from end to end, over a status window whose generation word is 0: if the
firmware starts behind both writes, then at whatever moments the host polls, it
learns what it had written, or that the tick rate does not fit it; if it starts
between them, it is refused. -/
theorem boot_answers_configuration {config : ClockConfiguration} (h : config.InRange) {m : Memory}
    (hm : (snapshot m).generation = 0) (tick : Word) :
    writeClockConfiguration config false = (.ok (), [staged config, commit config]) ∧
      ∀ polls, Answers ((commit config).apply ((staged config).apply m)) tick polls (answer config tick) ∧
        Answers ((staged config).apply m) tick polls refused := by
  refine ⟨write_in_range h, fun polls => ⟨?_, ?_⟩⟩
  · have hgeneration : BitVec.ofInt 32 config.generation ≠ 0 := ofInt_ne_zero (h.nonzero _ (by simp))
    have hrecord := handshake_committed (m := m) h tick
    have hanswers : Answers ((commit config).apply ((staged config).apply m)) tick polls fun j =>
        verdict j
          (handshakeStatus (readSharedConfiguration ((commit config).apply ((staged config).apply m))) tick) := by
      have hram : (snapshot ((commit config).apply ((staged config).apply m))).generation = 0 := by
        rw [snapshot_commit, snapshot_staged, hm]
      simp only at hrecord
      split at hrecord
      · exact answers_of_record hrecord hram hgeneration (.inr rfl) polls
      · exact answers_of_record hrecord hram hgeneration (.inl rfl) polls
    simpa only [verdict_committed h] using hanswers
  · have hrecord : handshakeStatus (readSharedConfiguration ((staged config).apply m)) tick =
        makeStatus .initFailed .clockConfigurationInvalid 1 0 0 := handshake_staged tick
    have hanswers := answers_of_record hrecord (by rw [snapshot_staged, hm]) (by decide) (.inr rfl) polls
    rw [handshake_staged] at hanswers
    exact hanswers

/-- A configuration of the host: a 600 MHz core over a 24 MHz oscillator. -/
def firstConfiguration : ClockConfiguration := ⟨7, 600000000, 24000000, 24000000, 200000000, 200000000, 0⟩

theorem boot_answers_first_configuration :
    Answers ((commit firstConfiguration).apply ((staged firstConfiguration).apply fun _ => 0)) 1000 [(20, true)]
      (answer firstConfiguration 1000) := by
  have hrange : firstConfiguration.InRange := ⟨by decide, by decide⟩
  exact ((boot_answers_configuration hrange (m := fun _ => 0) (by decide) 1000).2 [(20, true)]).1

end IoProcessor.Host
