import IoProcessor.Hal.CrashReport
import IoProcessor.Host.RunTests
import IoProcessor.Host.WaitReady

/-! The image fault_test: it traps on purpose, and the host learns of it in two
ways, as text in trace0 and as a record in the status window. -/
namespace IoProcessor.Apps.FaultTest
open Library Hal MemoryMap Trace TrapHandler Boot Host

/-- The calls of `main` before the store that traps. -/
def mainCalls : List Call :=
  [.init, .puts (some (chars "[riscv] fault_test: boot successful, trace initialized\n")),
    .puts (some (chars "[riscv] fault_test: triggering controlled exception (unaligned store)\n"))]

/-- `main` up to that store. -/
def runMain (m : Machine) : Machine := { m with drivers := m.drivers.onTrace (History.run Call.apply · mainCalls) }

/-- The image from its start to the end of the trap handler. -/
def faultTest (m : Machine) (t : Trap) (now : BitVec 64) : Machine := riscvTrapHandler (runMain m) t now

/-- What Trace does by then. -/
def textSteps (t : Trap) : List Step := (mainCalls ++ crashCalls t).flatMap Call.steps

def crashRecord (m : Machine) (t : Trap) : Status := crashStatus m.timer.coreFrequencyHz t.mcause t.mepc t.mtval

/-- The buffer when the text is complete. -/
def logged (m : Machine) (t : Trap) : Buffer := History.run Step.apply m.buffer (textSteps t)

/-- SRAM after a number of steps: those of Trace, and then the stores of the
status record. -/
def shown (m : Machine) (t : Trap) (k : Nat) : Memory :=
  if k < (textSteps t).length then (History.run Step.apply m.buffer ((textSteps t).take k)).ram
  else window (logged m t).ram [crashRecord m t] (k - (textSteps t).length)

/-- The moment at which the record is complete. -/
def reportedAt (t : Trap) : Nat := (textSteps t).length + 16

/-- The stores of a record leave the buffer alone. -/
theorem readTrace_publishPartly (k : Nat) (m : Memory) (status : Status) :
    readTrace (publishPartly k m status) = readTrace m := by
  have hkeep (is : List (Fin 16)) {j : Nat} (hj : j < 0x8000) (m : Memory) :
      is.foldl (storeWord status) m (bufferByte j) = m (bufferByte j) := by
    induction is generalizing m with
    | nil => rfl
    | cons i is ih =>
      have hi := statusWordAddr_toNat i
      have hhigh := bufferByte_toNat_of_lt hj
      rw [List.foldl_cons, ih, storeWord, Memory.store32]
      refine Memory.store_outside ?_ (.inr ?_) <;> rw [Memory.littleEndian_length] <;> omega
  exact congrArg cString (List.map_congr_left fun j hj => hkeep _ (List.mem_range.mp hj) m)

section
variable (m : Machine) (t : Trap)

theorem logged_eq : logged m t = History.run Call.apply m.buffer (mainCalls ++ crashCalls t) := run_flatMap_steps _ _

theorem snapshot_text (k : Nat) :
    snapshot (History.run Step.apply m.buffer ((textSteps t).take k)).ram = snapshot m.drivers.ram := by
  rw [run_ram]
  funext i
  have hi := statusWordAddr_toNat i
  refine load32_stores_below (fun s hs => ?_) (by omega)
  have hall := stores_init_lt m.buffer (mainCalls.tail ++ crashCalls t)
  refine hall s ?_
  have hsplit := stores_append m.buffer ((textSteps t).take k) ((textSteps t).drop k)
  rw [List.take_append_drop] at hsplit
  change s ∈ stores m.buffer (textSteps t)
  rw [hsplit]
  exact List.mem_append_left _ hs

theorem run_mainCalls (b : Buffer) :
    History.run Call.apply b mainCalls = History.run Call.apply (Trace.init b) mainCalls.tail := by
  rw [mainCalls, History.run_cons, List.tail_cons, Call.apply]

/-- The text is in trace0 from its last step on. -/
theorem report_logged : report t <:+: trace0 (logged m t) := by
  have hstart : Keeps (Trace.init m.buffer) Call.init.output := 
    ⟨(shows_init m.buffer).holds, (shows_init m.buffer).nonzero⟩
  have hmain := hstart.run mainCalls.tail
  rw [← run_mainCalls] at hmain
  have hout : (mainCalls.tail.foldl written Call.init.output).length = 144 := by decide +kernel
  have hoffset := hmain.holds.next_eq (List.ne_nil_of_length_pos (by omega))
  have hs : bufferSize = 0x8000 := rfl
  have hn := exceptionName_length_le t.code
  have hmargin : reportMargin.length = 9 := by decide
  rw [logged_eq, History.run_append, hmain.report_iff, FitsReport, hoffset, hout, hmargin, hs]
  omega

theorem shown_early {k : Nat} (hk : k < (textSteps t).length) :
    shown m t k = (History.run Step.apply m.buffer ((textSteps t).take k)).ram := if_pos hk

theorem shown_late {k : Nat} (hk : (textSteps t).length ≤ k) :
    shown m t k = window (logged m t).ram [crashRecord m t] (k - (textSteps t).length) := if_neg (Nat.not_lt.mpr hk)

theorem window_stores (ram : Memory) (r : Status) (k : Nat) :
    window ram [r] k = publishPartly (min k 16) ram r := by
  rcases Nat.lt_or_ge k 16 with hk | hk
  · rw [window_cons_early _ _ _ hk, Nat.min_eq_left (by omega)]
  · rw [window_cons_late _ _ _ (by omega), Nat.min_eq_right hk]
    rfl

theorem publishPartly_all (ram : Memory) (r : Status) : publishPartly 16 ram r = publish ram r := rfl

theorem onTrace_buffer (op : Buffer → Buffer) :
    Machine.buffer { m with drivers := m.drivers.onTrace op } = op m.buffer := rfl

/-- The doorbell is a register of the mailbox. -/
theorem ringDoorbell_ram (s : Machine) (message : Word) :
    (s.ringDoorbellToLinux message).drivers.ram = s.drivers.ram := by
  have hwrite (w : Msgbox.Mailbox) (a v : Word) : (Msgbox.mailbox.write w a v).ram = w.ram := by
    unfold Msgbox.mailbox
    dsimp only
    split <;> [rfl; skip]
    split <;> [rfl; skip]
    split <;> rfl
  exact hwrite _ _ _

theorem riscvTrapHandler_ram (now : BitVec 64) (ht : t.mcause &&& interruptBit = 0) :
    (riscvTrapHandler m t now).drivers.ram =
      publish (History.run Call.apply m.buffer (crashCalls t)).ram (crashRecord m t) := by
  rw [riscvTrapHandler, if_neg (not_not.mpr ht)]
  exact ringDoorbell_ram _ _

theorem shown_complete (now : BitVec 64) (ht : t.mcause &&& interruptBit = 0) {k : Nat} (hk : reportedAt t ≤ k) :
    shown m t k = (faultTest m t now).drivers.ram := by
  rw [reportedAt] at hk
  rw [shown_late m t (by omega), window_stores, Nat.min_eq_right (by omega), logged_eq, History.run_append, faultTest,
    riscvTrapHandler_ram _ _ _ ht, publishPartly_all, runMain, onTrace_buffer, crashRecord, crashRecord]

/-- No record is valid before the last store of publish. -/
theorem shown_invalid (hm : (snapshot m.drivers.ram).generation = 0) {k : Nat} (hk : k < reportedAt t) :
    (snapshot (shown m t k)).isValid = false := by
  have hall : snapshot (logged m t).ram = snapshot m.drivers.ram := by
    have htext := snapshot_text m t (textSteps t).length
    rwa [List.take_length] at htext
  have hgeneration : (snapshot (shown m t k)).generation = 0 := by
    rcases Nat.lt_or_ge k (textSteps t).length with hearly | hlate
    · rw [shown_early m t hearly, snapshot_text, hm]
    · rw [reportedAt] at hk
      rw [shown_late m t hlate, window_cons_early _ _ _ (by omega), (partly_words _ _ (by omega)).1, hall, hm]
  rw [Status.isValid, hgeneration]
  simp

theorem shown_reported {k : Nat} (hk : reportedAt t ≤ k) : snapshot (shown m t k) = crashRecord m t := by
  rw [reportedAt] at hk
  rw [shown_late m t (by omega), window_stores, Nat.min_eq_right (by omega), publishPartly_all, snapshot_publish]

theorem shown_text {k : Nat} (hk : (textSteps t).length ≤ k) : report t <:+: readTrace (shown m t k) := by
  rw [shown_late m t hk, window_stores, readTrace_publishPartly, readTrace_eq_trace0]
  exact report_logged m t

end

theorem expected_report (t : Trap) : TestName.fault.expected <:+: report t := by
  have hfirst : chars "FATAL TRAP: " = TestName.fault.expected ++ chars " " := by decide +kernel
  simp only [report, hfirst, List.append_assoc]
  exact (List.prefix_append _ _).isInfix

/-- The fault test, as the host sees it at any moments: from a window whose
generation word is 0 it is never taken to be ready, and when the wait fails it
fails with what the trap registers held, the text of the same exception being in
trace0 by then. That text passes the test, and nothing changes once the record is
complete. -/
theorem fault_seen_by_host (m : Machine) (t : Trap) (now : BitVec 64) (ht : t.mcause &&& interruptBit = 0)
    (hm : (snapshot m.drivers.ram).generation = 0) :
    (∀ polls, (waitForReady (shown m t) 0 polls = .timedOut ∧ ∀ j ∈ readings 0 polls, j < reportedAt t) ∨
      ∃ j ∈ readings 0 polls, reportedAt t ≤ j ∧ report t <:+: readTrace (shown m t j) ∧
        waitForReady (shown m t) 0 polls = .failed j
          ⟨0x544F4F42, 1, 64, 1, 4, 3, 0, m.timer.coreFrequencyHz.toNat, t.mcause.toNat, t.mepc.toNat, t.mtval.toNat⟩) ∧
      (∀ k, (textSteps t).length ≤ k → TestName.fault.expected <:+: readTrace (shown m t k)) ∧
      ∀ k, reportedAt t ≤ k → shown m t k = (faultTest m t now).drivers.ram := by
  refine ⟨fun polls => ?_, fun k hk => ?_, fun k hk => shown_complete m t now ht hk⟩
  · have hvalid : (crashRecord m t).isValid = true := rfl
    have hcrashed : (crashRecord m t).state = BootState.crashed.toWord := rfl
    have hstate : (crashRecord m t).state ∈ [BootState.ready.toWord, BootState.initFailed.toWord,
        BootState.crashed.toWord] := by simp [hcrashed]
    rcases waitForReady_decides (fun k hk => shown_invalid m t hm hk) (fun k hk => shown_reported m t hk) hvalid
      hstate 0 polls with hout | ⟨j, hj, hn, hfailed⟩
    · exact .inl hout
    · refine .inr ⟨j, hj, hn, shown_text m t (by rw [reportedAt] at hn; omega), hfailed.trans ?_⟩
      rw [verdict, hcrashed, if_neg (by decide)]
      rfl
  · exact (expected_report t).trans (shown_text m t hk)

/-- The core out of reset. -/
def coldStart : Machine := ⟨TrapHandler.init fun _ => 0, HardwareTimer.atReset 0 0 0 0, false⟩

/-- The store to address 1. -/
def misalignedStore : Trap := ⟨6, 0x07140100, 1, 0x1800⟩

theorem fault_seen_from_cold_start :
    TestName.fault.expected <:+: readTrace (faultTest coldStart misalignedStore 0).drivers.ram := by
  obtain ⟨-, htext, hend⟩ := fault_seen_by_host coldStart misalignedStore 0 (by decide) (by decide)
  rw [← hend (reportedAt misalignedStore) le_rfl]
  exact htext _ (by rw [reportedAt]; omega)

end IoProcessor.Apps.FaultTest
