import IoProcessor.Hal.BootStatus
import IoProcessor.Hal.HardwareTimer
import IoProcessor.Hal.TraceOutput
import IoProcessor.Hal.TrapHandler

/-! The trap handler as a whole: interrupts go to the timer or to a driver, and
an exception is reported to Linux as text before the core halts. -/
namespace IoProcessor.Hal.TrapHandler
open Library MemoryMap Trace

def interruptBit : Word := 1#32 <<< 31
def causeMask : Word := 0xFFF
def machineTimerInterruptCause : Word := 7
def firmwareCrashDoorbell : Word := 0xA3

/-- The registers that the handler reads. -/
structure Trap where
  mcause : Word
  mepc : Word
  mtval : Word
  mstatus : Word
  deriving DecidableEq, Repr

def Trap.code (t : Trap) : Word := t.mcause &&& causeMask

def exceptionName (code : Word) : String :=
  match code.toNat with
  | 0 => "instruction address misaligned"
  | 1 => "instruction access fault"
  | 2 => "illegal instruction"
  | 3 => "breakpoint"
  | 4 => "load address misaligned"
  | 5 => "load access fault"
  | 6 => "store/AMO address misaligned"
  | 7 => "store/AMO access fault"
  | 8 => "ecall from U-mode"
  | 11 => "ecall from M-mode"
  | _ => "unknown exception"

/-- The calls of Trace that decode an exception. -/
def crashCalls (t : Trap) : List Call :=
  [.puts (some (chars "\n[riscv] FATAL TRAP: ")),
    .puts (some (chars (exceptionName t.code))),
    .puts (some (chars "\n")),
    .putHex32 (some (chars "[riscv]   mcause  = ")) t.mcause,
    .putHex32 (some (chars "[riscv]   mepc    = ")) t.mepc,
    .putHex32 (some (chars "[riscv]   mtval   = ")) t.mtval,
    .putHex32 (some (chars "[riscv]   mstatus = ")) t.mstatus,
    .puts (some (chars "[riscv] halted, notifying host\n"))]

structure Machine where
  drivers : Firmware
  timer : HardwareTimer.State
  halted : Bool

def Machine.publish (m : Machine) (status : Boot.Status) : Machine :=
  { m with drivers.ram := Boot.publish m.drivers.ram status }

def Machine.ringDoorbellToLinux (m : Machine) (message : Word) : Machine :=
  { m with drivers := m.drivers.onMsgbox fun s =>
      { s with world := Msgbox.ringDoorbellToLinux Msgbox.mailbox s.world message } }

/-- `now` is what the timer reads from `mtime`. -/
def riscvTrapHandler (m : Machine) (t : Trap) (now : BitVec 64) : Machine :=
  if t.mcause &&& interruptBit ≠ 0 then
    if t.code = machineTimerInterruptCause then { m with timer := HardwareTimer.handleIsr m.timer now }
    else { m with drivers := dispatchExternal m.drivers t.code }
  else
    let m := { m with drivers := m.drivers.onTrace (History.run Call.apply · (crashCalls t)) }
    let m := m.publish (Boot.crashStatus m.timer.coreFrequencyHz t.mcause t.mepc t.mtval)
    let m := m.ringDoorbellToLinux firmwareCrashDoorbell
    { m with halted := true }

/-- The trace state of a machine: the buffer lies in the memory of all drivers. -/
def Machine.buffer (m : Machine) : Buffer := { m.drivers.trace with ram := m.drivers.ram }

/-- What is to be read of an exception, from the words FATAL TRAP on. -/
def report (t : Trap) : List Byte :=
  chars "FATAL TRAP: " ++ chars (exceptionName t.code) ++ chars "\n" ++
    (Call.putHex32 (some (chars "[riscv]   mcause  = ")) t.mcause).output ++
    (Call.putHex32 (some (chars "[riscv]   mepc    = ")) t.mepc).output ++
    (Call.putHex32 (some (chars "[riscv]   mtval   = ")) t.mtval).output ++
    (Call.putHex32 (some (chars "[riscv]   mstatus = ")) t.mstatus).output ++
    chars "[riscv] halted, notifying host\n"

/-- What stands before the report on its line. -/
def reportMargin : List Byte := chars "\n[riscv] "

theorem chars_nonzero {s : String} (h : s.toList.all (·.toNat % 256 ≠ 0)) : ∀ c ∈ chars s, c ≠ 0 := by
  intro c hc hz
  obtain ⟨d, hd, rfl⟩ := List.mem_map.mp hc
  have hd := of_decide_eq_true (List.all_eq_true.mp h d hd)
  rw [← BitVec.toNat_inj, BitVec.toNat_ofNat] at hz
  exact hd hz

theorem exceptionName_nonzero (code : Word) : ∀ c ∈ chars (exceptionName code), c ≠ 0 := by
  apply chars_nonzero
  unfold exceptionName
  split <;> simp

theorem label_chars {s : String} (h : ∀ c ∈ chars s, c ≠ 0) : label (some (chars s)) = chars s := by
  simpa [label, cString] using h

theorem reportMargin_append (s : String) : reportMargin ++ chars s = chars ("\n[riscv] " ++ s) := by
  simp only [reportMargin, chars, String.toList_append, List.map_append]

/-- The calls write the report behind its margin. -/
theorem crashCalls_output (t : Trap) : (crashCalls t).flatMap Call.output = reportMargin ++ report t := by
  have hputs {s : String} (h : ∀ c ∈ chars s, c ≠ 0) : (Call.puts (some (chars s))).output = chars s := label_chars h
  have hfirst : chars "\n[riscv] FATAL TRAP: " = reportMargin ++ chars "FATAL TRAP: " :=
    (reportMargin_append "FATAL TRAP: ").symm
  simp only [crashCalls, List.flatMap_cons, List.flatMap_nil, report, List.append_assoc, List.append_nil]
  rw [hputs (exceptionName_nonzero t.code), hputs (chars_nonzero (by simp)), hputs (chars_nonzero (by simp)),
    hputs (chars_nonzero (by simp)), hfirst, List.append_assoc]

theorem putHex32_output_length (text : Option (List Byte)) (value : Word) :
    (Call.putHex32 text value).output.length = (label text).length + 11 := by
  rw [← putHex32Chars_eq]
  simp [putHex32Chars, chars]

theorem chars_length (s : String) : (chars s).length = s.length := by simp [chars, String.length_toList]

theorem report_length (t : Trap) : (report t).length = 168 + (exceptionName t.code).length := by
  have hlabel {s : String} (h : s.toList.all (·.toNat % 256 ≠ 0)) : (label (some (chars s))).length = s.length := by
    rw [label_chars (chars_nonzero h), chars_length]
  simp only [report, List.length_append, putHex32_output_length, chars_length]
  rw [hlabel (by simp), hlabel (by simp), hlabel (by simp), hlabel (by simp)]
  have hfirst : "FATAL TRAP: ".length = 12 := rfl
  have hend : "\n".length = 1 := rfl
  have hline : "[riscv]   mcause  = ".length = 20 ∧ "[riscv]   mepc    = ".length = 20 ∧
      "[riscv]   mtval   = ".length = 20 ∧ "[riscv]   mstatus = ".length = 20 := ⟨rfl, rfl, rfl, rfl⟩
  have hlast : "[riscv] halted, notifying host\n".length = 31 := rfl
  omega

theorem exceptionName_length_le (code : Word) : (exceptionName code).length ≤ 30 := by
  unfold exceptionName
  split <;> decide

variable {b : Buffer} {out : List Byte}

/-- A buffer that Trace has worked on from reset, perhaps without a text yet. -/
structure Keeps (b : Buffer) (out : List Byte) : Prop where
  holds : b.Holds out
  nonzero : ∀ c ∈ out, c ≠ 0

theorem Keeps.reset (ram : Memory) : Keeps (init ram).trace [] := ⟨WrappedText.empty _ _, by simp⟩

theorem Keeps.print (h : Keeps b out) {cs : List Byte} (hc : ∀ c ∈ cs, c ≠ 0) : Keeps (print b cs) (out ++ cs) := by
  refine ⟨WrappedText.congr (h.holds.putChars cs) ?_, ?_⟩
  · intro k hk
    exact store8_above _ _ hk (h.holds.putChars cs).fits
  · intro c hm
    exact (List.mem_append.mp hm).elim (h.nonzero c) (hc c)

theorem Keeps.call (h : Keeps b out) (call : Call) : Keeps (call.apply b) (written out call) := by
  cases call with
  | init => exact ⟨(shows_init b).holds, (shows_init b).nonzero⟩
  | puts text =>
    cases text with
    | none =>
      rw [written, Call.output, label, Option.map_none, Option.getD_none, List.append_nil]
      · exact h
      · simp
    | some text => exact h.print (Call.puts (some text)).output_nonzero
  | putHex32 text value =>
    rw [Call.apply, putHex32_eq_print]
    exact h.print (Call.putHex32 text value).output_nonzero
  | putDec text value =>
    rw [Call.apply, putDec_eq_print]
    exact h.print (Call.putDec text value).output_nonzero

theorem Keeps.run (h : Keeps b out) (calls : List Call) :
    Keeps (History.run Call.apply b calls) (calls.foldl written out) := by
  induction calls generalizing b out with
  | nil => exact h
  | cons call calls ih => exact ih (h.call call)

theorem foldl_written {calls : List Call} (hc : .init ∉ calls) (out : List Byte) :
    calls.foldl written out = out ++ calls.flatMap Call.output := by
  induction calls generalizing out with
  | nil => simp
  | cons call calls ih =>
    simp only [List.mem_cons, not_or] at hc
    have hw : written out call = out ++ call.output := by
      cases call with
      | init => exact absurd rfl hc.1
      | puts text => rfl
      | putHex32 text value => rfl
      | putDec text value => rfl
    rw [List.foldl_cons, ih hc.2, hw, List.flatMap_cons, List.append_assoc]

/-- A call that prints something leaves a terminated text, whatever it finds. -/
theorem Keeps.calls (h : Keeps b out) {text : List Byte} (ht : cString text ≠ []) {calls : List Call}
    (hc : .init ∉ calls) :
    (History.run Call.apply b (.puts (some text) :: calls)).Shows
      (out ++ (Call.puts (some text) :: calls).flatMap Call.output) := by
  have hfirst : ((Call.puts (some text)).apply b).Shows (out ++ (Call.puts (some text)).output) :=
    (h.holds.putChars (cString text)).terminate (List.append_ne_nil_of_right_ne_nil out ht)
      (h.call (.puts (some text))).nonzero
  have hrest := hfirst.run calls
  rw [foldl_written hc, List.append_assoc] at hrest
  exact hrest

theorem Keeps.crash (h : Keeps b out) (t : Trap) :
    (History.run Call.apply b (crashCalls t)).Shows (out ++ (reportMargin ++ report t)) := by
  rw [← crashCalls_output]
  exact h.calls (by simp [cString, chars]) (by simp)

/-- Where the report lies in one piece: its first character starts the buffer
again, or its last one still fits. -/
def FitsReport (offset : Nat) (t : Trap) : Prop :=
  bufferSize - 1 ≤ offset + reportMargin.length ∨
    offset + reportMargin.length + 168 + (exceptionName t.code).length ≤ bufferSize - 1

theorem Keeps.report_iff (h : Keeps b out) (t : Trap) :
    report t <:+: trace0 (History.run Call.apply b (crashCalls t)) ↔ FitsReport b.offset t := by
  have hs : bufferSize = 0x8000 := rfl
  have hm : reportMargin.length = 9 := by decide
  have hr := report_length t
  have hn := exceptionName_length_le t.code
  have hb := h.holds.fits
  have hshows := h.crash t
  have hlen : (reportMargin ++ report t).length = 9 + (report t).length := by rw [List.length_append, hm]
  have hafter := h.holds.next_append hshows.holds (List.append_ne_nil_of_left_ne_nil (by decide) _) (by omega)
  have hholds := hshows.holds
  rw [← List.append_assoc] at hholds
  have htrace := hshows.trace0_eq
  rw [← List.append_assoc, List.rtake] at htrace
  rw [htrace, WrappedText.infix_newest_iff hholds, hafter, hlen, FitsReport, hm]
  split <;> omega

/-- The trace buffer as the handler leaves it: nothing of Trace comes after the
report. -/
theorem riscvTrapHandler_trace (m : Machine) {t : Trap} (ht : t.mcause &&& interruptBit = 0) (now : BitVec 64) :
    (riscvTrapHandler m t now).drivers.trace = History.run Call.apply m.buffer (crashCalls t) := by
  rw [riscvTrapHandler, if_neg (not_not.mpr ht)]
  rfl

/-- The report of an exception can be read as one text exactly when the write
offset lets it, after any calls of Trace. -/
theorem crash_report_readable_iff (m : Machine) (ram : Memory) (calls : List Call)
    (hm : m.buffer = History.run Call.apply (init ram).trace calls) (t : Trap)
    (ht : t.mcause &&& interruptBit = 0) (now : BitVec 64) :
    report t <:+: trace0 (riscvTrapHandler m t now).drivers.trace ↔ FitsReport m.buffer.offset t := by
  have hkeeps := (Keeps.reset ram).run calls
  rw [← hm] at hkeeps
  rw [riscvTrapHandler_trace m ht]
  exact hkeeps.report_iff t

/-- An illegal instruction as the first thing that the firmware does. -/
private def bootMachine (trace : Buffer) : Machine :=
  ⟨{ init (fun _ => 0) with trace := trace, ram := trace.ram }, HardwareTimer.atReset 0 0 0 0, false⟩

private theorem bootMachine_buffer (trace : Buffer) : (bootMachine trace).buffer = trace := rfl

private def illegal : Trap := ⟨2, 0x07140000, 0, 0x1800⟩

theorem crash_report_readable_at_boot :
    report illegal <:+:
      trace0 (riscvTrapHandler (bootMachine (init fun _ => 0).trace) illegal 0).drivers.trace :=
  (crash_report_readable_iff (bootMachine (init fun _ => 0).trace) (fun _ => 0) [] rfl illegal (by decide) 0).mpr
    (by unfold FitsReport; decide)

/-- The buffer after a log of so many characters. -/
private def logged (n : Nat) : Buffer :=
  History.run Call.apply (init fun _ => 0).trace [.puts (some (List.replicate n 97))]

private theorem keeps_logged (n : Nat) : Keeps (logged n) (List.replicate n 97) := by
  have hout : (Call.puts (some (List.replicate n 97))).output = List.replicate n 97 := by
    rw [Call.output, label, Option.map_some, Option.getD_some, cString, List.takeWhile_replicate]
    rfl
  have h := (Keeps.reset fun _ => 0).run [.puts (some (List.replicate n 97))]
  rw [List.foldl_cons, List.foldl_nil, written, hout, List.nil_append] at h
  · exact h
  · simp

private theorem logged_offset {n : Nat} (hn : 0 < n) : (logged n).offset = (n - 1) % (bufferSize - 1) + 1 := by
  have h := (keeps_logged n).holds.next_eq (List.ne_nil_of_length_pos (by rwa [List.length_replicate]))
  rwa [List.length_replicate] at h

theorem crash_report_split_by_wrap :
    (bootMachine (logged 32700)).buffer = logged 32700 ∧ illegal.mcause &&& interruptBit = 0 ∧
      ¬ report illegal <:+: trace0 (riscvTrapHandler (bootMachine (logged 32700)) illegal 0).drivers.trace := by
  have hs : bufferSize = 0x8000 := rfl
  have hm : reportMargin.length = 9 := by decide
  have hn : (exceptionName illegal.code).length = 19 := by decide
  refine ⟨bootMachine_buffer _, by decide, ?_⟩
  rw [riscvTrapHandler_trace _ (by decide), bootMachine_buffer]
  refine mt ((keeps_logged 32700).report_iff illegal).mp ?_
  rw [FitsReport, logged_offset (by decide), hm, hn, hs]
  decide

end IoProcessor.Hal.TrapHandler
