import Mathlib.Data.List.DropRight
import IoProcessor.Library.Followed
import IoProcessor.Host.RunTests

/-! What run-test and run-all write to the files of RemoteProc, for every
outcome of the accesses to files and for all arguments. -/
namespace IoProcessor.Host.TestRunner
open Library

/-- What `float` makes of an argument. -/
inductive Seconds where
  | finite (value : ℚ)
  | infinite (negative : Bool)
  | nan
  deriving DecidableEq

namespace Seconds

/-- The comparison with zero, which is false for a NaN. -/
def nonpos : Seconds → Bool
  | .finite value => value ≤ 0
  | .infinite negative => negative
  | .nan => false

/-- The sum with a reading of the clock, rounded to a float. -/
def after (round : ℚ → Seconds) (start : ℚ) : Seconds → Seconds
  | .finite value => round (start + value)
  | s => s

/-- A reading of the clock is before a deadline. -/
def reached (now : ℚ) : Seconds → Bool
  | .finite deadline => ¬ now < deadline
  | .infinite negative => negative
  | .nan => true

end Seconds

abbrev Text := List Byte

/-- `rstrip("\0")`. -/
def rstrip (text : Text) : Text := text.rdropWhile (· = 0)

/-- One turn of the polling loop: the clock, the decoded text of trace0 if the read
does not raise, and whether the print of a new text and the sleep return. -/
structure Poll where
  now : ℚ
  text : Option Text
  prints : Bool
  sleeps : Bool

/-- The text that is compared. -/
def Poll.current (p : Poll) : Option Text := p.text.map rstrip

/-- How a wait ends, or that it goes on behind the last poll. -/
inductive Waiting where
  | matched | timedOut | raised | polling
  deriving DecidableEq, Repr

def pollTrace (expected : Text) (deadline : Seconds) : Option Text → List Poll → Waiting
  | _, [] => .polling
  | previous, p :: polls =>
    if deadline.reached p.now then .timedOut
    else
      match p.current with
      | none => .raised
      | some current =>
        if some current ≠ previous ∧ ¬ p.prints then .raised
        else if expected <:+: current then .matched
        else if ¬ p.sleeps then .raised
        else pollTrace expected deadline (some current) polls

/-- The clock when the deadline is set, the rounding of that sum, and the polls. -/
structure Wait where
  start : ℚ
  round : ℚ → Seconds
  polls : List Poll

def Wait.deadline (w : Wait) (timeout : Seconds) : Seconds := timeout.after w.round w.start

def waitForTrace (expected : Text) (timeout interval : Seconds) (w : Wait) : Waiting :=
  if timeout.nonpos ∨ interval.nonpos then .raised
  else pollTrace expected (w.deadline timeout) none w.polls

inductive Write where
  | stop | firmware | start
  deriving DecidableEq, Repr

/-- A write that was tried, and whether it succeeded. -/
abbrev Attempt := Write × Bool

inductive Ending where
  | returned | raised | polling
  deriving DecidableEq, Repr

abbrev Run := List Attempt × Ending

/-- `write_text`, which raises where it fails. -/
def writeText (write : Write) (succeeds : Bool) (rest : Run) : Run :=
  if succeeds then ((write, true) :: rest.1, rest.2) else ([(write, false)], .raised)

/-- Which writes of a test succeed, and its wait. -/
structure Session where
  stop : Bool
  firmware : Bool
  start : Bool
  wait : Wait
  stopAgain : Bool

/-- The writes of both commands around the wait. -/
def runSession (keepRunning : Bool) (timeout interval : Seconds) (name : TestName) (s : Session) : Run :=
  writeText .stop s.stop <| writeText .firmware s.firmware <| writeText .start s.start <|
    match waitForTrace name.expected timeout interval s.wait with
    | .raised => ([], .raised)
    | .polling => ([], .polling)
    | .matched | .timedOut => if keepRunning then ([], .returned) else writeText .stop s.stopAgain ([], .returned)

/-- `main` with run-test. -/
def runTest (dryRun keepRunning : Bool) (timeout interval : Seconds) (name : TestName) (s : Session) : Run :=
  if dryRun then ([], .returned) else runSession keepRunning timeout interval name s

/-- What `exists` says of a firmware file. -/
inductive Presence where
  | present | missing | raises
  deriving DecidableEq, Repr

structure Candidate where
  name : TestName
  presence : Presence
  session : Session

/-- The loop of `run_all_tests`: it goes on behind an exception within a test. -/
def runTests (dryRun : Bool) (timeout interval : Seconds) : List Candidate → Run
  | [] => ([], .returned)
  | c :: rest =>
    if dryRun then runTests dryRun timeout interval rest
    else
      match c.presence with
      | .raises => ([], .raised)
      | .missing => runTests dryRun timeout interval rest
      | .present =>
        let (log, ending) := runSession false timeout interval c.name c.session
        if ending = .polling then (log, .polling)
        else
          let (others, last) := runTests dryRun timeout interval rest
          (log ++ others, last)

/-- The registry. -/
def candidates (presence : TestName → Presence) (session : TestName → Session) : List Candidate :=
  TestName.all.map fun name => ⟨name, presence name, session name⟩

def runAllTests (dryRun : Bool) (timeout interval : Seconds) (presence : TestName → Presence)
    (session : TestName → Session) : Run :=
  runTests dryRun timeout interval (candidates presence session)

/-- A stop is tried behind every start that succeeded. -/
def StopsAfter (log : List Attempt) : Prop := Followed (· = (.start, true)) (·.1 = .stop) log

/-- Without `--keep-running`, run-test tries a stop before it ends. -/
def RunTestStops (dryRun keepRunning : Bool) (timeout interval : Seconds) (name : TestName) (s : Session) : Prop :=
  let run := runTest dryRun keepRunning timeout interval name s
  keepRunning = false → run.2 ≠ .polling → StopsAfter run.1

/-- `run_all_tests` tries a stop before it returns. -/
def RunAllStops (dryRun : Bool) (timeout interval : Seconds) (presence : TestName → Presence)
    (session : TestName → Session) : Prop :=
  let run := runAllTests dryRun timeout interval presence session
  run.2 = .returned → StopsAfter run.1

/-- The poll raises. -/
def Poll.Raises (expected : Text) (previous : Option Text) (p : Poll) : Prop :=
  match p.current with
  | none => True
  | some current => (some current ≠ previous ∧ ¬ p.prints) ∨ (¬ expected <:+: current ∧ ¬ p.sleeps)

def Poll.Shows (expected : Text) (p : Poll) : Prop := ∃ current, p.current = some current ∧ expected <:+: current

/-- A poll before the deadline raises, and none before it shows the text. -/
def Interrupted (expected : Text) (deadline : Seconds) : Option Text → List Poll → Prop
  | _, [] => False
  | previous, p :: polls =>
    deadline.reached p.now = false ∧
      (p.Raises expected previous ∨ (¬ p.Shows expected ∧ Interrupted expected deadline p.current polls))

/-- All polls are before the deadline, and none of them raises or shows the
text. -/
def Endless (expected : Text) (deadline : Seconds) : Option Text → List Poll → Prop
  | _, [] => True
  | previous, p :: polls =>
    deadline.reached p.now = false ∧ ¬ p.Raises expected previous ∧ ¬ p.Shows expected ∧
      Endless expected deadline p.current polls

section Waits
variable (expected : Text) (deadline : Seconds)

theorem pollTrace_cases (previous : Option Text) (polls : List Poll) :
    (pollTrace expected deadline previous polls = .raised ↔ Interrupted expected deadline previous polls) ∧
      (pollTrace expected deadline previous polls = .polling ↔ Endless expected deadline previous polls) := by
  induction polls generalizing previous with
  | nil => simp [pollTrace, Interrupted, Endless]
  | cons p polls ih =>
    rw [pollTrace, Interrupted, Endless]
    by_cases hlate : deadline.reached p.now
    · simp [hlate]
    rw [if_neg hlate]
    have hintime : deadline.reached p.now = false := Bool.eq_false_of_not_eq_true hlate
    rcases hcurrent : p.current with _ | current
    · have hraises : p.Raises expected previous := by rw [Poll.Raises, hcurrent]; trivial
      simp [hintime, hraises]
    have hraises : p.Raises expected previous ↔
        (some current ≠ previous ∧ ¬ p.prints) ∨ (¬ expected <:+: current ∧ ¬ p.sleeps) := by
      rw [Poll.Raises, hcurrent]
    have hshows : p.Shows expected ↔ expected <:+: current := by
      rw [Poll.Shows, hcurrent]
      simp
    rw [hraises, hshows]
    dsimp only
    by_cases hprint : some current ≠ previous ∧ ¬ p.prints
    · rw [if_pos hprint]
      exact ⟨iff_of_true rfl ⟨hintime, .inl (.inl hprint)⟩, iff_of_false nofun fun h => h.2.1 (.inl hprint)⟩
    rw [if_neg hprint]
    by_cases hfound : expected <:+: current
    · rw [if_pos hfound]
      refine ⟨iff_of_false nofun ?_, iff_of_false nofun fun h => h.2.2.1 hfound⟩
      rintro ⟨-, (h | h) | h⟩
      exacts [hprint h, h.1 hfound, h.1 hfound]
    rw [if_neg hfound]
    by_cases hsleep : ¬ p.sleeps
    · rw [if_pos hsleep]
      exact ⟨iff_of_true rfl ⟨hintime, .inl (.inr ⟨hfound, hsleep⟩)⟩,
        iff_of_false nofun fun h => h.2.1 (.inr ⟨hfound, hsleep⟩)⟩
    rw [if_neg hsleep, (ih (some current)).1, (ih (some current)).2]
    have hquiet : ¬ ((some current ≠ previous ∧ ¬ p.prints) ∨ (¬ expected <:+: current ∧ ¬ p.sleeps)) :=
      not_or.mpr ⟨hprint, fun h => hsleep h.2⟩
    exact ⟨⟨fun h => ⟨hintime, .inr ⟨hfound, h⟩⟩, fun h => h.2.elim (absurd · hquiet) (·.2)⟩,
      ⟨fun h => ⟨hintime, hquiet, hfound, h⟩, fun h => h.2.2.2⟩⟩

end Waits

section Tests
variable (timeout interval : Seconds) (name : TestName) (s : Session)

/-- Start is written. -/
def Session.Started : Prop := s.stop ∧ s.firmware ∧ s.start

/-- The wait raises: it rejects its arguments, or a poll is interrupted. -/
def WaitRaises : Prop :=
  timeout.nonpos ∨ interval.nonpos ∨ Interrupted name.expected (s.wait.deadline timeout) none s.wait.polls

/-- The wait goes on behind the last poll. -/
def WaitGoesOn : Prop :=
  timeout.nonpos = false ∧ interval.nonpos = false ∧ Endless name.expected (s.wait.deadline timeout) none s.wait.polls

theorem waitForTrace_cases :
    (waitForTrace name.expected timeout interval s.wait = .raised ↔ WaitRaises timeout interval name s) ∧
      (waitForTrace name.expected timeout interval s.wait = .polling ↔ WaitGoesOn timeout interval name s) := by
  unfold waitForTrace WaitRaises WaitGoesOn
  obtain ⟨hraised, hpolling⟩ := pollTrace_cases name.expected (s.wait.deadline timeout) none s.wait.polls
  by_cases hargs : timeout.nonpos ∨ interval.nonpos
  · rw [if_pos hargs]
    rcases hargs with h | h <;> simp [h]
  · rw [if_neg hargs, hraised, hpolling]
    rw [not_or, Bool.not_eq_true, Bool.not_eq_true] at hargs
    simp [hargs]

/-- A test without `--keep-running`: it tries a stop first, it goes on for ever
exactly in its wait, and otherwise it leaves a start behind exactly where the
wait raises. -/
theorem runSession_cases :
    let run := runSession false timeout interval name s
    (∃ b ∈ run.1, b.1 = .stop) ∧ (run.2 = .polling ↔ s.Started ∧ WaitGoesOn timeout interval name s) ∧
      (run.2 ≠ .polling → (StopsAfter run.1 ↔ ¬ (s.Started ∧ WaitRaises timeout interval name s))) := by
  obtain ⟨hraised, hpolling⟩ := waitForTrace_cases timeout interval name s
  rw [← hraised, ← hpolling, runSession, Session.Started]
  rcases hstop : s.stop
  · simp [writeText, StopsAfter, Followed]
  rcases hfirmware : s.firmware
  · simp [writeText, StopsAfter, Followed]
  rcases hstart : s.start
  · simp [writeText, StopsAfter, Followed]
  rcases waitForTrace name.expected timeout interval s.wait
  · cases s.stopAgain <;> simp [writeText, StopsAfter, Followed]
  · cases s.stopAgain <;> simp [writeText, StopsAfter, Followed]
  · simp [writeText, StopsAfter, Followed]
  · simp [writeText, StopsAfter, Followed]

theorem not_both (h : WaitRaises timeout interval name s) : ¬ WaitGoesOn timeout interval name s := by
  obtain ⟨hraised, hpolling⟩ := waitForTrace_cases timeout interval name s
  intro hgoes
  exact nomatch (hraised.mpr h).symm.trans (hpolling.mpr hgoes)

theorem runTest_stops_iff (dryRun keepRunning : Bool) :
    RunTestStops dryRun keepRunning timeout interval name s ↔
      dryRun ∨ keepRunning ∨ ¬ s.Started ∨ ¬ WaitRaises timeout interval name s := by
  obtain ⟨-, hpolling, hstops⟩ := runSession_cases timeout interval name s
  cases dryRun
  · cases keepRunning
    · simp only [Bool.false_eq_true, false_or]
      constructor
      · intro h
        by_cases hstarted : s.Started
        · refine .inr fun hraises => ?_
          have hends : (runSession false timeout interval name s).2 ≠ .polling :=
            fun he => not_both timeout interval name s hraises (hpolling.mp he).2
          exact (hstops hends).mp (h rfl hends) ⟨hstarted, hraises⟩
        · exact .inl hstarted
      · intro h _ hends
        exact (hstops hends).mpr fun ⟨hstarted, hraises⟩ => h.elim (· hstarted) (· hraises)
    · simp [RunTestStops]
  · simp [RunTestStops, runTest, StopsAfter, Followed]

/-- The firmware file is there and answers, and the wait of a test that is
started ends. -/
def Candidate.Ends (c : Candidate) : Prop :=
  c.presence ≠ .raises ∧ (c.presence = .present → c.session.Started → ¬ WaitGoesOn timeout interval c.name c.session)

/-- A test that is started and left by an exception of its wait. -/
def Candidate.Abandoned (c : Candidate) : Prop :=
  c.presence = .present ∧ c.session.Started ∧ WaitRaises timeout interval c.name c.session

/-- Such a test with no other behind it whose firmware file is there. -/
def LastAbandoned (candidates : List Candidate) : Prop :=
  ∃ earlier c later, candidates = earlier ++ c :: later ∧ c.Abandoned timeout interval ∧
    ∀ d ∈ later, d.presence ≠ .present

theorem lastAbandoned_cons {c : Candidate} {rest : List Candidate} :
    LastAbandoned timeout interval (c :: rest) ↔
      LastAbandoned timeout interval rest ∨ (c.Abandoned timeout interval ∧ ∀ d ∈ rest, d.presence ≠ .present) := by
  constructor
  · rintro ⟨earlier, d, later, he, hd, hlater⟩
    cases earlier with
    | nil =>
      obtain ⟨rfl, rfl⟩ := List.cons.inj he
      exact .inr ⟨hd, hlater⟩
    | cons e earlier => exact .inl ⟨earlier, d, later, (List.cons.inj he).2, hd, hlater⟩
  · rintro (⟨earlier, d, later, rfl, hd, hlater⟩ | ⟨hc, hrest⟩)
    · exact ⟨c :: earlier, d, later, rfl, hd, hlater⟩
    · exact ⟨[], c, rest, rfl, hc, hrest⟩

/-- A test whose firmware file is there, before the others: its start is left
behind if it is abandoned and nothing behind it stops the coprocessor. -/
theorem lastAbandoned_present {c : Candidate} {rest : List Candidate} {log others : List Attempt}
    (hpresence : c.presence = .present)
    (hlog : StopsAfter log ↔ ¬ (c.session.Started ∧ WaitRaises timeout interval c.name c.session))
    (htried : (∃ b ∈ others, b.1 = .stop) ↔ ∃ d ∈ rest, d.presence = .present)
    (hothers : StopsAfter others ↔ ¬ LastAbandoned timeout interval rest) :
    StopsAfter (log ++ others) ↔ ¬ LastAbandoned timeout interval (c :: rest) := by
  have hnone : (∀ d ∈ rest, d.presence ≠ .present) ↔ ¬ ∃ d ∈ rest, d.presence = .present := by simp
  unfold StopsAfter at hlog hothers ⊢
  rw [followed_append, hothers, htried, hlog, lastAbandoned_cons, not_or, Candidate.Abandoned, hnone, not_and_not_right]
  simp only [hpresence, true_and]
  exact and_congr_right fun _ => by rw [or_iff_not_imp_right, not_not]

/-- The loop returns if every test ends. Then a stop is tried exactly if a
firmware file is there, and one behind every start exactly if the last such test
is not abandoned. -/
theorem runTests_cases (candidates : List Candidate) :
    let run := runTests false timeout interval candidates
    (run.2 = .returned ↔ ∀ c ∈ candidates, c.Ends timeout interval) ∧
      (run.2 = .returned → ((∃ b ∈ run.1, b.1 = .stop) ↔ ∃ c ∈ candidates, c.presence = .present) ∧
        (StopsAfter run.1 ↔ ¬ LastAbandoned timeout interval candidates)) := by
  induction candidates with
  | nil => simp [runTests, StopsAfter, Followed, LastAbandoned]
  | cons c rest ih =>
    obtain ⟨hreturns, hlog⟩ := ih
    dsimp only at hreturns hlog ⊢
    rw [runTests, if_neg Bool.false_ne_true, List.forall_mem_cons]
    rcases hpresence : c.presence
    · obtain ⟨hstop, hpolling, hstops⟩ := runSession_cases timeout interval c.name c.session
      dsimp only at hstop hpolling hstops ⊢
      by_cases hgoes : (runSession false timeout interval c.name c.session).2 = .polling
      · rw [if_pos hgoes]
        have hnot : ¬ c.Ends timeout interval := fun h => by
          obtain ⟨hstarted, hwait⟩ := hpolling.mp hgoes
          exact h.2 hpresence hstarted hwait
        simp [hnot]
      · rw [if_neg hgoes]
        have hends : c.Ends timeout interval :=
          ⟨by rw [hpresence]; decide, fun _ hstarted hwait => hgoes (hpolling.mpr ⟨hstarted, hwait⟩)⟩
        refine ⟨by rw [hreturns]; simp [hends], fun hreturned => ?_⟩
        obtain ⟨htried, hafter⟩ := hlog hreturned
        refine ⟨iff_of_true ?_ ⟨c, List.mem_cons_self, hpresence⟩, ?_⟩
        · obtain ⟨b, hb, hbstop⟩ := hstop
          exact ⟨b, List.mem_append_left _ hb, hbstop⟩
        · exact lastAbandoned_present timeout interval hpresence (hstops hgoes) htried hafter
    · have habandoned : ¬ c.Abandoned timeout interval := by simp [Candidate.Abandoned, hpresence]
      have hends : c.Ends timeout interval := by simp [Candidate.Ends, hpresence]
      simp only [lastAbandoned_cons, hends, habandoned, true_and, false_and, or_false, List.exists_mem_cons_iff,
        hpresence, reduceCtorEq, false_or]
      exact ⟨hreturns, hlog⟩
    · have hnot : ¬ c.Ends timeout interval := fun h => h.1 hpresence
      simp [hnot]

theorem runTests_dry (candidates : List Candidate) : runTests true timeout interval candidates = ([], .returned) := by
  induction candidates with
  | nil => rfl
  | cons c rest ih => rw [runTests, if_pos rfl, ih]

variable (dryRun : Bool) (presence : TestName → Presence) (session : TestName → Session)

theorem runAll_stops_iff :
    RunAllStops dryRun timeout interval presence session ↔
      dryRun ∨ (∃ c ∈ candidates presence session, ¬ c.Ends timeout interval) ∨
        ¬ LastAbandoned timeout interval (candidates presence session) := by
  unfold RunAllStops runAllTests
  cases dryRun
  · obtain ⟨hreturns, hlog⟩ := runTests_cases timeout interval (candidates presence session)
    simp only [Bool.false_eq_true, false_or]
    constructor
    · intro h
      by_cases hends : ∀ c ∈ candidates presence session, c.Ends timeout interval
      · have hreturned := hreturns.mpr hends
        exact .inr ((hlog hreturned).2.mp (h hreturned))
      · exact .inl (by simpa using hends)
    · rintro (⟨c, hc, hnot⟩ | hlast) hreturned
      · exact absurd (hreturns.mp hreturned c hc) hnot
      · exact (hlog hreturned).2.mpr hlast
  · rw [runTests_dry]
    simp [StopsAfter, Followed]

end Tests

/-- The coprocessor is left stopped by run-test exactly if it was not started,
or was to be kept running, or the wait does not raise; and by run-all exactly if
that is so of the last test whose firmware file is there. -/
theorem leaves_stopped_iff (dryRun keepRunning : Bool) (timeout interval : Seconds) (name : TestName) (s : Session)
    (presence : TestName → Presence) (session : TestName → Session) :
    (RunTestStops dryRun keepRunning timeout interval name s ↔
      dryRun ∨ keepRunning ∨ ¬ s.Started ∨ ¬ WaitRaises timeout interval name s) ∧
    (RunAllStops dryRun timeout interval presence session ↔
      dryRun ∨ (∃ c ∈ candidates presence session, ¬ c.Ends timeout interval) ∨
        ¬ LastAbandoned timeout interval (candidates presence session)) :=
  ⟨runTest_stops_iff timeout interval name s dryRun keepRunning, runAll_stops_iff timeout interval dryRun presence session⟩

/-- Every write succeeds, and trace0 cannot be read. -/
def unreadable : Session := ⟨true, true, true, ⟨0, .finite, [⟨1, none, true, true⟩]⟩, true⟩

/-- Both commands then end behind a start. -/
theorem unreadable_runs_on :
    ¬ RunTestStops false false (.finite 10) (.finite (1/4)) .timer unreadable ∧
      ¬ RunAllStops false (.finite 10) (.finite (1/4)) (fun _ => .present) fun _ => unreadable := by
  have htest : runTest false false (.finite 10) (.finite (1/4)) .timer unreadable =
      ([(.stop, true), (.firmware, true), (.start, true)], .raised) := by decide +kernel
  have hall : runAllTests false (.finite 10) (.finite (1/4)) (fun _ => .present) (fun _ => unreadable) =
      ((List.replicate 6 [(.stop, true), (.firmware, true), (.start, true)]).flatten, .returned) := by decide +kernel
  constructor
  · intro h
    have hstops := h rfl (by rw [htest]; exact nofun)
    rw [htest] at hstops
    simp [StopsAfter, Followed] at hstops
  · intro h
    have hstops := h (by rw [hall])
    rw [hall] at hstops
    simp [StopsAfter, Followed, List.replicate] at hstops

section Verdicts
open Hal Trace

def ofWaited : Waited → Waiting
  | .matched => .matched
  | .timedOut => .timedOut
  | .raised => .raised

/-- What the polls of a run on the firmware's memory read, with a clock that
jumps to the deadline behind them. -/
def observed (timeout : ℚ) : Memory → List Host.Poll → List Poll
  | _, [] => [⟨timeout, none, true, true⟩]
  | m, p :: polls =>
    ⟨0, if p.readable then some (readTrace (stored m p.stores)) else none, true, true⟩ ::
      observed timeout (stored m p.stores) polls

theorem rstrip_readTrace (m : Memory) : rstrip (readTrace m) = readTrace m := by
  rw [rstrip, List.rdropWhile_eq_self_iff]
  intro hne
  simpa using List.mem_takeWhile_imp (List.getLast_mem hne)

theorem pollTrace_observed {timeout : ℚ} (h : 0 < timeout) (expected : Text) (previous : Option Text) (m : Memory)
    (polls : List Host.Poll) :
    pollTrace expected (.finite timeout) previous (observed timeout m polls) =
      ofWaited (Host.pollTrace expected m polls).1 := by
  induction polls generalizing previous m with
  | nil => simp [observed, pollTrace, Host.pollTrace, Seconds.reached, ofWaited]
  | cons p polls ih =>
    rw [observed, pollTrace, Host.pollTrace]
    have hintime : Seconds.reached 0 (.finite timeout) = false := by simp [Seconds.reached, h]
    rw [hintime, if_neg Bool.false_ne_true]
    cases hreadable : p.readable
    · rfl
    · by_cases hfound : expected <:+: readTrace (stored m p.stores)
      · simp [Poll.current, rstrip_readTrace, hfound, ofWaited]
      · simp [Poll.current, rstrip_readTrace, hfound, ih]

theorem waitForTrace_observed (expected : Text) (timeout interval : ℚ) (m : Memory) (polls : List Host.Poll) :
    waitForTrace expected (.finite timeout) (.finite interval) ⟨0, .finite, observed timeout m polls⟩ =
      ofWaited (Host.waitForTrace expected timeout interval m polls).1 := by
  unfold waitForTrace Host.waitForTrace
  by_cases h : timeout ≤ 0 ∨ interval ≤ 0
  · simp [Seconds.nonpos, h, ofWaited]
  · have hpos : 0 < timeout := not_le.mp (not_or.mp h).1
    simp [Seconds.nonpos, Wait.deadline, Seconds.after, h, pollTrace_observed hpos]

/-- run-test reports an error exactly if it ends with an exception. -/
theorem runTest_report (dryRun keepRunning : Bool) (timeout interval : ℚ) (name : TestName) (m : Memory)
    (s : Host.Session) (stop firmware start : Bool) (hs : s.starts = (stop && firmware && start)) :
    (runTest dryRun keepRunning (.finite timeout) (.finite interval) name
        ⟨stop, firmware, start, ⟨0, .finite, observed timeout m s.polls⟩, s.stops⟩).2 = .raised ↔
      (Host.runTest dryRun keepRunning timeout interval name m s).1 = .error := by
  unfold runTest Host.runTest runSession
  rw [waitForTrace_observed, hs]
  cases dryRun
  · cases stop
    · simp [writeText]
    cases firmware
    · simp [writeText]
    cases start
    · simp [writeText]
    rcases hwaited : (Host.waitForTrace name.expected timeout interval m s.polls).1 <;> cases keepRunning <;>
      cases s.stops <;> simp [writeText, ofWaited, hwaited]
  · simp

end Verdicts
end IoProcessor.Host.TestRunner
