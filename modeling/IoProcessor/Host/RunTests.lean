import Mathlib.Data.List.Infix
import Mathlib.Data.Rat.Defs
import Mathlib.Algebra.Order.Ring.Unbundled.Rat
import IoProcessor.Hal.TraceOutput

/-! The firmware tests of remoteproc_control.py: a test image is started and
trace0 is polled for its text. The buffer behind trace0 is in SRAM, and neither
a stop nor the load of an image writes to it. -/
namespace IoProcessor.Host
open Library Hal MemoryMap Trace

structure FirmwareTest where
  firmwareName : String
  expectedTrace : String
  deriving DecidableEq, Repr

inductive TestName where
  | timer | smoke | hello | ipc | fault | ping
  deriving DecidableEq, Repr

def firmwareTests : TestName → FirmwareTest
  | .timer => ⟨"timer_test.elf", "timer_test: alive"⟩
  | .smoke => ⟨"platform_smoke_test.elf", "platform smoke test"⟩
  | .hello => ⟨"hello_world.elf", "AbstractX Heartbeat"⟩
  | .ipc => ⟨"ipc_benchmark.elf", "IPC Benchmark"⟩
  | .fault => ⟨"fault_test.elf", "FATAL TRAP:"⟩
  | .ping => ⟨"ipc_ping_test.elf", "ipc_ping_test: ready"⟩

/-- The bytes of the pass text. -/
def TestName.expected (name : TestName) : List Byte := chars (firmwareTests name).expectedTrace

/-- The order of the registry. -/
def TestName.all : List TestName := [.timer, .smoke, .hello, .ipc, .fault, .ping]

abbrev Store := Word × Byte

/-- Memory behind stores of the firmware. -/
def stored (m : Memory) (stores : List Store) : Memory := stores.foldl (fun m s => m.store8 s.1 s.2) m

/-- What a read of trace0 returns. -/
def readTrace (m : Memory) : List Byte := cString (m.read ⟨ipcTraceBufferAddr, ipcTraceBufferSize⟩)

theorem readTrace_eq_trace0 (b : Buffer) : readTrace b.ram = trace0 b := rfl

/-- One poll of trace0, with the stores that the firmware has made since the
one before; the read may raise an exception. -/
structure Poll where
  stores : List Store
  readable : Bool
  deriving DecidableEq, Repr

inductive Waited where
  | matched | timedOut | raised
  deriving DecidableEq, Repr

/-- The polls until the deadline. The texts are printable ASCII, so that a
search in the decoded text is a search in the bytes: decoding replaces other
bytes by characters that are not ASCII, and newlines by newlines. -/
def pollTrace (expected : List Byte) : Memory → List Poll → Waited × List Store
  | _, [] => (.timedOut, [])
  | m, poll :: polls =>
    if !poll.readable then (.raised, poll.stores)
    else if expected <:+: readTrace (stored m poll.stores) then (.matched, poll.stores)
    else
      let rest := pollTrace expected (stored m poll.stores) polls
      (rest.1, poll.stores ++ rest.2)

/-- The outcome, and the stores that the firmware had made by then. -/
def waitForTrace (expected : List Byte) (timeout interval : ℚ) (m : Memory) (polls : List Poll) : Waited × List Store :=
  if timeout ≤ 0 ∨ interval ≤ 0 then (.raised, []) else pollTrace expected m polls

/-- How a test goes apart from the tool: whether the writes of stop, firmware
and start and the stop behind the wait succeed, what the image does, and what
it stores between the last poll and its end. -/
structure Session where
  starts : Bool
  polls : List Poll
  late : List Store
  stops : Bool

inductive Report where
  | pass | fail | error | dryRun
  deriving DecidableEq, Repr

def Report.exitCode : Report → Nat
  | .pass | .dryRun => 0
  | .error => 1
  | .fail => 2

/-- `main` with run-test, with the stores of the image up to the verdict. -/
def runTest (dryRun keepRunning : Bool) (timeout interval : ℚ) (name : TestName) (m : Memory) (s : Session) :
    Report × List Store :=
  if dryRun then (.dryRun, [])
  else if !s.starts then (.error, [])
  else
    let (waited, stores) := waitForTrace name.expected timeout interval m s.polls
    if waited = .raised ∨ (!keepRunning ∧ !s.stops) then (.error, stores)
    else if waited = .matched then (.pass, stores)
    else (.fail, stores)

/-- One test of `run_all_tests`; every exception is a failure. -/
def runOne (dryRun present : Bool) (timeout interval : ℚ) (name : TestName) (m : Memory) (s : Session) :
    Bool × List Store :=
  if !dryRun && !present then (false, [])
  else if dryRun then (true, [])
  else if !s.starts then (false, [])
  else
    let (waited, stores) := waitForTrace name.expected timeout interval m s.polls
    (decide (waited = .matched) && s.stops, stores)

/-- A line of the report of `run_all_tests`, with the memory that the test was
started on. -/
structure Entry where
  name : TestName
  start : Memory
  passed : Bool
  stores : List Store

def runTests (dryRun : Bool) (present : TestName → Bool) (timeout interval : ℚ) (sessions : TestName → Session) :
    Memory → List TestName → List Entry
  | _, [] => []
  | m, name :: names =>
    let (passed, stores) := runOne dryRun (present name) timeout interval name m (sessions name)
    ⟨name, m, passed, stores⟩ ::
      runTests dryRun present timeout interval sessions (stored (stored m stores) (sessions name).late) names

def runAllTests (dryRun : Bool) (present : TestName → Bool) (timeout interval : ℚ) (sessions : TestName → Session)
    (m : Memory) : List Entry :=
  runTests dryRun present timeout interval sessions m TestName.all

def exitCode (entries : List Entry) : Nat := if entries.all (·.passed) then 0 else 1

/-- The text has stood in the buffer, and every byte of it was stored by the
image that the test has started. -/
def Evidence (expected : List Byte) (start : Memory) (stores : List Store) : Prop :=
  ∃ made, made <+: stores ∧ ∃ i, i + expected.length ≤ bufferSize ∧ ∀ j (hj : j < expected.length),
    bufferByte (i + j) ∈ made.map Prod.fst ∧ stored start made (bufferByte (i + j)) = expected[j]

/-- No byte that is left over stands where it could be part of the text. -/
def Unrelated (expected : List Byte) (m : Memory) : Prop :=
  ∀ i, i + expected.length ≤ bufferSize → ∀ j (hj : j < expected.length), m (bufferByte (i + j)) ≠ expected[j]

section Stores
variable {m : Memory} {a : Word}

theorem stored_append (first second : List Store) : stored m (first ++ second) = stored (stored m first) second :=
  List.foldl_append

theorem stored_of_not_mem {stores : List Store} (h : a ∉ stores.map Prod.fst) : stored m stores a = m a := by
  induction stores generalizing m with
  | nil => rfl
  | cons s stores ih =>
    rw [List.map_cons, List.mem_cons, not_or] at h
    have hrest := ih (m := m.store8 s.1 s.2) h.2
    rw [Memory.store8_ne _ _ h.1] at hrest
    exact hrest

/-- The value of a byte whose stores all agree. -/
theorem stored_of_mem {stores : List Store} {v : Byte} (h : a ∈ stores.map Prod.fst)
    (hv : ∀ s ∈ stores, s.1 = a → s.2 = v) : stored m stores a = v := by
  induction stores generalizing m with
  | nil => simp at h
  | cons s stores ih =>
    by_cases hrest : a ∈ stores.map Prod.fst
    · exact ih hrest fun s hs => hv s (List.mem_cons_of_mem _ hs)
    · have hs : s.1 = a := by
        rw [List.map_cons, List.mem_cons] at h
        exact (h.resolve_right hrest).symm
      have hkeep := stored_of_not_mem (m := m.store8 s.1 s.2) hrest
      rw [hs, Memory.store8_self] at hkeep
      rw [← hv s List.mem_cons_self hs, ← hkeep, ← hs]
      rfl

end Stores

theorem bufferByte_inj {i j : Nat} (hi : i < bufferSize) (hj : j < bufferSize) : bufferByte i = bufferByte j ↔ i = j := by
  have hs : bufferSize = 0x8000 := rfl
  constructor
  · intro h
    have hoffset := congrArg (fun x => (x - ipcTraceBufferAddr).toNat) h
    simpa only [bufferByte, Memory.add_sub_toNat (show i < 2^32 by omega), Memory.add_sub_toNat (show j < 2^32 by omega)]
      using hoffset
  · rintro rfl
    rfl

/-- A text in trace0 is a text in the buffer. -/
theorem exists_place {expected : List Byte} {m : Memory} (h : expected <:+: readTrace m) :
    ∃ i, i + expected.length ≤ bufferSize ∧ ∀ j (hj : j < expected.length), m (bufferByte (i + j)) = expected[j] := by
  have hpre : readTrace m <+: (List.range bufferSize).map fun k => m (bufferByte k) := List.takeWhile_prefix _
  obtain ⟨i, hlen, hplace⟩ := List.infix_iff_getElem?.mp (h.trans hpre.isInfix)
  rw [List.length_map, List.length_range] at hlen
  refine ⟨i, by omega, fun j hj => ?_⟩
  have hget := hplace j hj
  rw [List.getElem?_map, List.getElem?_range (by omega), Option.map_some, Nat.add_comm] at hget
  exact Option.some.inj hget

/-- A text in the buffer with nothing but characters before it is a text in
trace0. -/
theorem infix_readTrace {expected : List Byte} {m : Memory} {i : Nat} (hi : i + expected.length ≤ bufferSize)
    (hbefore : ∀ k < i, m (bufferByte k) ≠ 0)
    (hplace : ∀ j (hj : j < expected.length), m (bufferByte (i + j)) = expected[j]) (hchars : ∀ c ∈ expected, c ≠ 0) :
    expected <:+: readTrace m := by
  have htext : (List.range expected.length).map (fun j => m (bufferByte (i + j))) = expected := by
    refine List.ext_getElem (by simp) fun j hj hj' => ?_
    rw [List.getElem_map, List.getElem_range]
    exact hplace j hj'
  obtain ⟨rest, hrest⟩ := Nat.exists_eq_add_of_le hi
  have hsplit : (List.range bufferSize).map (fun k => m (bufferByte k)) =
      (List.range i).map (fun k => m (bufferByte k)) ++ expected ++
        (List.range rest).map (fun k => m (bufferByte (i + expected.length + k))) := by
    rw [hrest, List.range_add, List.range_add, List.map_append, List.map_append, List.map_map, List.map_map, ← htext]
    simp [Function.comp_def]
  have hread : readTrace m = ((List.range bufferSize).map fun k => m (bufferByte k)).takeWhile (· ≠ 0) := rfl
  rw [hread, hsplit, List.takeWhile_append_of_pos]
  · exact ⟨_, _, rfl⟩
  · intro c hc
    rw [decide_eq_true_iff]
    rcases List.mem_append.mp hc with hc | hc
    · obtain ⟨k, hk, rfl⟩ := List.mem_map.mp hc
      exact hbefore k (List.mem_range.mp hk)
    · exact hchars c hc

/-- What stands in trace0 without being left over is evidence. -/
theorem evidence_of_unrelated {expected : List Byte} {m : Memory} {stores : List Store} (hm : Unrelated expected m)
    (h : expected <:+: readTrace (stored m stores)) : Evidence expected m stores := by
  obtain ⟨i, hi, hplace⟩ := exists_place h
  refine ⟨stores, List.prefix_rfl, i, hi, fun j hj => ⟨?_, hplace j hj⟩⟩
  by_contra hmem
  refine hm i hi j hj ?_
  rw [← hplace j hj, stored_of_not_mem hmem]

/-- Stores that complete a left-over byte to the text: filler up to its place,
then the text without that byte. -/
def completion (expected : List Byte) (i j : Nat) : List Store :=
  (List.range i).map (fun k => (bufferByte k, 1)) ++
    ((List.range expected.length).filter (· ≠ j)).map fun k => (bufferByte (i + k), expected.getD k 0)

theorem mem_completion {expected : List Byte} {i j : Nat} {s : Store} :
    s ∈ completion expected i j ↔ (∃ k < i, (bufferByte k, 1) = s) ∨
      ∃ k < expected.length, k ≠ j ∧ (bufferByte (i + k), expected.getD k 0) = s := by
  simp only [completion, List.mem_append, List.mem_map, List.mem_range, List.mem_filter, decide_eq_true_eq, and_assoc]

section Completion
variable {expected : List Byte} {m : Memory} {i j : Nat} (hi : i + expected.length ≤ bufferSize)
include hi

/-- The bytes that are stored, and what is stored to each of them. -/
theorem completion_place {k : Nat} (hk : k < bufferSize) {s : Store} (hs : s ∈ completion expected i j)
    (ha : s.1 = bufferByte k) :
    (k < i ∧ s.2 = 1) ∨ (i ≤ k ∧ k < i + expected.length ∧ k ≠ i + j ∧ s.2 = expected.getD (k - i) 0) := by
  rcases mem_completion.mp hs with ⟨k', hk', rfl⟩ | ⟨k', hk', hne, rfl⟩
  · obtain rfl := (bufferByte_inj (by omega) hk).mp ha
    exact .inl ⟨hk', rfl⟩
  · obtain rfl := (bufferByte_inj (by omega) hk).mp ha
    refine .inr ⟨by omega, by omega, by omega, ?_⟩
    rw [Nat.add_sub_cancel_left]

theorem completion_stores_filler {k : Nat} (hk : k < i) : stored m (completion expected i j) (bufferByte k) = 1 := by
  refine stored_of_mem (List.mem_map.mpr ⟨_, mem_completion.mpr (.inl ⟨k, hk, rfl⟩), rfl⟩) fun s hs ha => ?_
  rcases completion_place hi (by omega) hs ha with h | h
  · exact h.2
  · omega

theorem completion_stores_text {k : Nat} (hk : k < expected.length) (hne : k ≠ j) :
    stored m (completion expected i j) (bufferByte (i + k)) = expected[k] := by
  refine stored_of_mem (List.mem_map.mpr ⟨_, mem_completion.mpr (.inr ⟨k, hk, hne, rfl⟩), rfl⟩) fun s hs ha => ?_
  rcases completion_place hi (by omega) hs ha with h | ⟨-, -, -, h⟩
  · omega
  · rw [h, Nat.add_sub_cancel_left, List.getD_eq_getElem?_getD, List.getElem?_eq_getElem hk, Option.getD_some]

variable (hj : j < expected.length)
include hj

theorem completion_matches (hleft : m (bufferByte (i + j)) = expected[j]) (hchars : ∀ c ∈ expected, c ≠ 0) :
    expected <:+: readTrace (stored m (completion expected i j)) := by
  refine infix_readTrace hi (fun k hk => ?_) (fun k hk => ?_) hchars
  · rw [completion_stores_filler hi hk]
    decide
  · by_cases hkj : k = j
    · subst hkj
      rw [← hleft]
      apply stored_of_not_mem
      rintro hmem
      obtain ⟨s, hs, ha⟩ := List.mem_map.mp hmem
      rcases completion_place hi (by omega) hs ha with h | h <;> omega
    · exact completion_stores_text hi hk hkj

/-- The image has not written the text: one byte of it is left over. -/
theorem completion_no_evidence (hchars : ∀ c ∈ expected, c ≠ 1) : ¬ Evidence expected m (completion expected i j) := by
  rintro ⟨made, hmade, i', hi', hown⟩
  have hplace (k : Nat) (hk : k < expected.length) : ∃ s ∈ made, s.1 = bufferByte (i' + k) := by
    obtain ⟨s, hs, ha⟩ := List.mem_map.mp (hown k hk).1
    exact ⟨s, hs, ha⟩
  rcases Nat.lt_trichotomy i' i with hlt | rfl | hgt
  · -- The text would begin with filler.
    obtain ⟨hmem, hvalue⟩ := hown 0 (by omega)
    rw [stored_of_mem hmem (v := 1)] at hvalue
    · exact hchars _ (List.getElem_mem _) hvalue.symm
    · intro s hs ha
      rcases completion_place hi (by omega) (hmade.subset hs) ha with h | h
      · exact h.2
      · omega
  · obtain ⟨s, hs, ha⟩ := hplace j hj
    rcases completion_place hi (by omega) (hmade.subset hs) ha with h | h <;> omega
  · obtain ⟨s, hs, ha⟩ := hplace (expected.length - 1) (by omega)
    rcases completion_place hi (by omega) (hmade.subset hs) ha with h | h <;> omega

end Completion

theorem expected_chars (name : TestName) :
    0 < name.expected.length ∧
      ∀ c ∈ name.expected, c ≠ 0 ∧ c ≠ 1 := by
  cases name <;> simp [TestName.expected, firmwareTests, chars]

/-- A match is a match with what the image has stored by then. -/
theorem pollTrace_matched {expected : List Byte} {m : Memory} {polls : List Poll}
    (h : (pollTrace expected m polls).1 = .matched) :
    expected <:+: readTrace (stored m (pollTrace expected m polls).2) := by
  induction polls generalizing m with
  | nil => cases h
  | cons poll polls ih =>
    unfold pollTrace at h ⊢
    split
    · rename_i hr
      rw [if_pos hr] at h
      cases h
    · rename_i hr
      rw [if_neg hr] at h
      split
      · assumption
      · rename_i hm
        rw [if_neg hm] at h
        simp only [stored_append]
        exact ih h

theorem waitForTrace_matched {expected : List Byte} {timeout interval : ℚ} {m : Memory} {polls : List Poll}
    (h : (waitForTrace expected timeout interval m polls).1 = .matched) :
    expected <:+: readTrace (stored m (waitForTrace expected timeout interval m polls).2) := by
  unfold waitForTrace at h ⊢
  split
  · rename_i ht
    rw [if_pos ht] at h
    cases h
  · rename_i ht
    rw [if_neg ht] at h
    exact pollTrace_matched h

/-- A single poll behind some stores. -/
theorem waitForTrace_once {expected : List Byte} {m : Memory} {stores : List Store}
    (h : expected <:+: readTrace (stored m stores)) :
    waitForTrace expected 1 1 m [⟨stores, true⟩] = (.matched, stores) := by
  rw [waitForTrace, if_neg (by norm_num), pollTrace]
  simp [h]

/-- A PASS of run-test, started on a memory, is for what its image did. -/
def TestSound (dryRun : Bool) (name : TestName) (m : Memory) : Prop :=
  ∀ keepRunning timeout interval s, (runTest dryRun keepRunning timeout interval name m s).1 = .pass →
    Evidence name.expected m (runTest dryRun keepRunning timeout interval name m s).2

/-- So is a PASS in the report of `run_all_tests`. -/
def OneSound (dryRun present : Bool) (name : TestName) (m : Memory) : Prop :=
  ∀ timeout interval s, (runOne dryRun present timeout interval name m s).1 = true →
    Evidence name.expected m (runOne dryRun present timeout interval name m s).2

section Verdicts
variable {name : TestName} {m : Memory}

theorem runTest_pass {dryRun keepRunning : Bool} {timeout interval : ℚ} {s : Session}
    (h : (runTest dryRun keepRunning timeout interval name m s).1 = .pass) :
    (waitForTrace name.expected timeout interval m s.polls).1 = .matched ∧
      (runTest dryRun keepRunning timeout interval name m s).2 =
        (waitForTrace name.expected timeout interval m s.polls).2 := by
  rcases hw : waitForTrace name.expected timeout interval m s.polls with ⟨waited, stores⟩
  simp only [runTest, hw] at h ⊢
  split at h
  · cases h
  split at h
  · cases h
  split at h
  · cases h
  split at h
  · rename_i hdry hstarts hended hmatched
    rw [if_neg hdry, if_neg hstarts, if_neg hended, if_pos hmatched]
    exact ⟨hmatched, rfl⟩
  · cases h

theorem runOne_passed {present : Bool} {timeout interval : ℚ} {s : Session}
    (h : (runOne false present timeout interval name m s).1 = true) :
    (waitForTrace name.expected timeout interval m s.polls).1 = .matched ∧
      (runOne false present timeout interval name m s).2 =
        (waitForTrace name.expected timeout interval m s.polls).2 := by
  rcases hw : waitForTrace name.expected timeout interval m s.polls with ⟨waited, stores⟩
  simp only [runOne, hw] at h ⊢
  rw [if_neg Bool.false_ne_true] at h ⊢
  split at h
  · cases h
  split at h
  · cases h
  · rename_i habsent hstarts
    rw [if_neg habsent, if_neg hstarts]
    obtain ⟨hmatched, -⟩ := Bool.and_eq_true_iff.mp h
    exact ⟨of_decide_eq_true hmatched, rfl⟩

theorem testSound_of_unrelated (h : Unrelated name.expected m) (dryRun : Bool) : TestSound dryRun name m := by
  intro keepRunning timeout interval s hpass
  obtain ⟨hmatched, hstores⟩ := runTest_pass hpass
  rw [hstores]
  exact evidence_of_unrelated h (waitForTrace_matched hmatched)

theorem oneSound_of_unrelated (h : Unrelated name.expected m) (present : Bool) : OneSound false present name m := by
  intro timeout interval s hpass
  obtain ⟨hmatched, hstores⟩ := runOne_passed hpass
  rw [hstores]
  exact evidence_of_unrelated h (waitForTrace_matched hmatched)

/-- Otherwise an image that completes the left-over byte to the text is passed. -/
theorem unrelated_of_testSound (h : TestSound false name m) : Unrelated name.expected m := by
  intro i hi j hj hleft
  obtain ⟨-, hchars⟩ := expected_chars name
  have hmatch := completion_matches hi hj hleft fun c hc => (hchars c hc).1
  have hpass : runTest false false 1 1 name m ⟨true, [⟨completion name.expected i j, true⟩], [], true⟩ =
      (.pass, completion name.expected i j) := by
    simp [runTest, waitForTrace_once hmatch]
  have hown := h false 1 1 ⟨true, [⟨completion name.expected i j, true⟩], [], true⟩ (by rw [hpass])
  rw [hpass] at hown
  exact completion_no_evidence hi hj (fun c hc => (hchars c hc).2) hown

/-- A dry run of the suite reports PASS, and no image is started at all. -/
theorem not_oneSound_dryRun (present : Bool) : ¬ OneSound true present name m := by
  intro h
  obtain ⟨made, hmade, i, -, hown⟩ := h 1 1 ⟨true, [], [], true⟩ (by simp [runOne])
  have hnone : made = [] := by simpa [runOne] using hmade
  have hfirst := (hown 0 (expected_chars name).1).1
  simp [hnone] at hfirst

end Verdicts

/-- Every entry of a run of the suite starts where the ones before left off. -/
theorem runTests_entry {present : TestName → Bool} {timeout interval : ℚ} {sessions : TestName → Session} {m : Memory}
    {names : List TestName} {dryRun : Bool} {e : Entry}
    (he : e ∈ runTests dryRun present timeout interval sessions m names) :
    runOne dryRun (present e.name) timeout interval e.name e.start (sessions e.name) = (e.passed, e.stores) := by
  induction names generalizing m with
  | nil => simp [runTests] at he
  | cons name names ih =>
    rw [runTests] at he
    rcases List.mem_cons.mp he with rfl | he
    · rfl
    · exact ih he

/-- A test that is passed has shown its text itself, provided that nothing left
in the buffer can be part of the text and that it is run at all. -/
theorem pass_on_own_evidence_iff (dryRun present : Bool) (name : TestName) (old : Memory) :
    (TestSound dryRun name old ∧ OneSound dryRun present name old ↔ dryRun = false ∧ Unrelated name.expected old) ∧
      ∀ present timeout interval sessions,
        (∀ e ∈ runAllTests false present timeout interval sessions old, Unrelated e.name.expected e.start) →
        ∀ e ∈ runAllTests false present timeout interval sessions old,
          e.passed = true → Evidence e.name.expected e.start e.stores := by
  refine ⟨⟨?_, ?_⟩, ?_⟩
  · rintro ⟨htest, hone⟩
    cases dryRun with
    | false => exact ⟨rfl, unrelated_of_testSound htest⟩
    | true => exact absurd hone (not_oneSound_dryRun present)
  · rintro ⟨rfl, hold⟩
    exact ⟨testSound_of_unrelated hold false, oneSound_of_unrelated hold present⟩
  · intro present timeout interval sessions hall e he hpassed
    have hentry := runTests_entry he
    have hsound := oneSound_of_unrelated (hall e he) (present e.name) timeout interval (sessions e.name)
    rw [hentry] at hsound
    exact hsound hpassed

/-- On a buffer that has been cleared every verdict is the image's own. -/
theorem cleared_buffer_sound : TestSound false .timer (fun _ => 0) ∧ OneSound false true .timer (fun _ => 0) := by
  refine (pass_on_own_evidence_iff false true .timer _).1.mpr ⟨rfl, fun i hi j hj => ?_⟩
  exact Ne.symm ((expected_chars .timer).2 _ (List.getElem_mem hj)).1

/-- The text of an earlier run of the timer test is left in the buffer. -/
def afterTimerTest : Memory := Memory.store (fun _ => 0) ipcTraceBufferAddr TestName.timer.expected

/-- An image that stores nothing is passed by both commands. -/
theorem silent_image_passes :
    let s : Session := ⟨true, [⟨[], true⟩], [], true⟩
    runTest false false 1 1 .timer afterTimerTest s = (.pass, []) ∧
      runOne false true 1 1 .timer afterTimerTest s = (true, []) ∧
      ¬ Evidence TestName.timer.expected afterTimerTest [] := by
  obtain ⟨hlen, hchars⟩ := expected_chars .timer
  have hshown : TestName.timer.expected <:+: readTrace (stored afterTimerTest []) := by
    have hsmall : TestName.timer.expected.length = 17 := by simp [TestName.expected, firmwareTests, chars]
    refine infix_readTrace (i := 0) (by rw [hsmall]; decide) (by simp) (fun j hj => ?_) fun c hc => (hchars c hc).1
    rw [Nat.zero_add, stored, List.foldl_nil, afterTimerTest, bufferByte, Memory.store, Memory.add_sub_toNat (by omega),
      List.getD_eq_getElem?_getD, List.getElem?_eq_getElem hj, Option.getD_some]
  have hwait := waitForTrace_once hshown
  refine ⟨by simp [runTest, hwait], by simp [runOne, hwait], ?_⟩
  rintro ⟨made, hmade, i, -, hown⟩
  have hfirst := (hown 0 hlen).1
  simp [List.prefix_nil.mp hmade] at hfirst

end IoProcessor.Host
