import IoProcessor.Library.Collector
import IoProcessor.Library.History
import IoProcessor.Library.PythonText
import IoProcessor.Host.TestRunner

/-! `measure_timer_accuracy`: the lines of a growing trace are read again at every
change, and a reading is dropped only if the last one has its value. -/
namespace IoProcessor.Host.TimerAccuracy
open Library Collector PythonText
open TestRunner (Seconds)

def marker : Text := "mtime=".toList

/-- The counter in a line, if it has one that `int` converts. -/
def mtimeOf (line : Text) : Option Int :=
  if marker <:+: line then
    let behind := (split marker line).getLast?.getD []
    int0 (strip ((split [')'] behind).head?.getD []))
  else none

/-- A counter value and the place of its line. -/
structure Sample where
  value : Int
  line : Nat
  deriving DecidableEq, Repr

/-- A sample with the time of the host. -/
structure Reading where
  host : ℚ
  sample : Sample

/-- The text of a poll, if trace0 exists, and the clock at each line. -/
structure Poll where
  text : Option Text
  clock : Nat → ℚ

def rstrip (text : Text) : Text := text.rdropWhile (·.toNat = 0)

def readLine (clock : Nat → ℚ) (readings : List Reading) (line : Text × Nat) : List Reading :=
  match mtimeOf line.1 with
  | none => readings
  | some mtime =>
    if readings.getLast?.map (·.sample.value) ≠ some mtime then readings ++ [⟨clock line.2, mtime, line.2⟩]
    else readings

def readText (clock : Nat → ℚ) (readings : List Reading) (text : Text) : List Reading :=
  (splitlines text).zipIdx.foldl (readLine clock) readings

/-- The turns of the loop, of which each begins behind the sleep of the one
before. -/
def collectSamples (sampleCount : Int) : Text → List Reading → List Poll → List Reading
  | _, readings, [] => readings
  | prevText, readings, p :: polls =>
    if readings.length < sampleCount then
      match p.text.map rstrip with
      | none => collectSamples sampleCount prevText readings polls
      | some text =>
        if text ≠ prevText then collectSamples sampleCount text (readText p.clock readings text) polls
        else collectSamples sampleCount prevText readings polls
    else readings

/-- The host time and the ticks between the first reading and the last, and the
frequency. -/
structure Accuracy where
  dtHost : ℚ
  dmtime : Int
  measuredHz : ℚ

def accuracy (readings : List Reading) : Option Accuracy := do
  let first ← readings.head?
  let last ← readings.getLast?
  let dtHost := last.host - first.host
  let dmtime := last.sample.value - first.sample.value
  some ⟨dtHost, dmtime, if 0 < dtHost then dmtime / dtHost else 0⟩

/-- It rejects its arguments, raises in the sleep, still polls, or ends with its
readings. -/
inductive Outcome where
  | valueError
  | raised (readings : List Reading)
  | polling (readings : List Reading)
  | measured (readings : List Reading) (result : Option Accuracy)

/-- `sleeps` says whether `time.sleep` takes the interval. It raises on a NaN, on an
infinity and on what a clock cannot hold, in the first turn. -/
def measureTimerAccuracy (sampleCount : Int) (interval : Seconds) (sleeps : Bool) (polls : List Poll) : Outcome :=
  if sampleCount < 2 ∨ interval.nonpos then .valueError
  else if ¬ sleeps ∧ polls ≠ [] then .raised (collectSamples sampleCount [] [] (polls.take 1))
  else
    let readings := collectSamples sampleCount [] [] polls
    if readings.length < sampleCount then .polling readings else .measured readings (accuracy readings)

/-- The samples in the lines of a text. -/
def samples (text : Text) : List Sample :=
  (splitlines text).zipIdx.filterMap fun line => (mtimeOf line.1).map (⟨·, line.2⟩)

def texts (polls : List Poll) : List Text := polls.filterMap (·.text.map rstrip)

/-- Polls of a trace that only grows and whose counter increases from line to
line. -/
structure Growing where
  polls : List Poll
  grows : (texts polls).Pairwise (· <+: ·)
  increasing : ∀ text ∈ texts polls, Increasing Sample.value (samples text)

/-- The values increase, no line has two readings, and once the loop has ended
there are as many as asked for. -/
structure Once (sampleCount : Int) (ended : Prop) (readings : List Sample) : Prop where
  increasing : Increasing Sample.value readings
  lines : (readings.map (·.line)).Nodup
  count : ended → readings.length = sampleCount

/-- Each counter value is sampled once. -/
def SamplesOnce (sampleCount : Int) (interval : Seconds) (sleeps : Bool) (polls : List Poll) : Prop :=
  match measureTimerAccuracy sampleCount interval sleeps polls with
  | .valueError => True
  | .raised readings => Once sampleCount False (readings.map (·.sample))
  | .polling readings => Once sampleCount False (readings.map (·.sample))
  | .measured readings _ => Once sampleCount True (readings.map (·.sample))

/-- Each value of the texts, where it stands first. -/
def firsts (texts : List Text) : List Sample :=
  texts.foldl (fun seen text => seen ++ fresh Sample.value seen (samples text)) []

section Conditions
variable (sampleCount : Int)

/-- No value is below one of an earlier text, each value stands first on a line of
its own, and the values are not more than the samples. -/
structure Fits (earlier : List Text) (text : Text) : Prop where
  ascends : ∀ x ∈ firsts earlier, ∀ y ∈ samples text, x.value ≤ y.value
  lines : ((firsts (earlier ++ [text])).map (·.line)).Nodup
  count : (firsts (earlier ++ [text])).length ≤ sampleCount

/-- Every text that differs from the one before fits to the earlier ones, as long
as samples are wanting. -/
def Orderly (earlier : List Text) (later : List Text) : Prop :=
  History.Along (fun earlier text => earlier ++ [text])
    (fun earlier text => (firsts earlier).length < sampleCount → text ≠ earlier.getLast?.getD [] →
      Fits sampleCount earlier text) earlier later

end Conditions

theorem readText_samples (clock : Nat → ℚ) (readings : List Reading) (text : Text) :
    (readText clock readings text).map (·.sample) = scan Sample.value (readings.map (·.sample)) (samples text) := by
  unfold readText samples
  induction (splitlines text).zipIdx generalizing readings with
  | nil => rfl
  | cons line lines ih =>
    rw [List.foldl_cons, ih, List.filterMap_cons]
    rcases hmtime : mtimeOf line.1 with _ | mtime
    · rw [readLine, hmtime]
      rfl
    · have hlast : readings.getLast?.map (·.sample.value) =
          (readings.map (·.sample)).getLast?.map Sample.value := by
        rw [List.getLast?_map, Option.map_map]
        rfl
      have hline : (readLine clock readings line).map (·.sample) =
          collect Sample.value (readings.map (·.sample)) ⟨mtime, line.2⟩ := by
        rw [readLine, hmtime, collect, ← hlast]
        dsimp only
        split
        · rw [List.map_append, List.map_singleton]
        · rfl
      rw [hline]
      rfl

theorem lines_increase (text : Text) : (samples text).Pairwise fun x y => x.line < y.line := by
  have hzip : (splitlines text).zipIdx.Pairwise fun l m => l.2 < m.2 := by
    rw [← List.pairwise_map, List.zipIdx_map_snd]
    exact List.pairwise_lt_range'
  refine List.Pairwise.filterMap _ ?_ hzip
  rintro l m hlt x hx y hy
  obtain ⟨_, -, rfl⟩ := Option.map_eq_some_iff.mp hx
  obtain ⟨_, -, rfl⟩ := Option.map_eq_some_iff.mp hy
  exact hlt

theorem collectSamples_extends (sampleCount : Int) (prevText : Text) (readings : List Reading) (polls : List Poll) :
    readings.map (·.sample) <+: (collectSamples sampleCount prevText readings polls).map (·.sample) := by
  induction polls generalizing prevText readings with
  | nil => exact List.prefix_rfl
  | cons p polls ih =>
    rw [collectSamples]
    split
    · split
      · exact ih prevText readings
      · rename_i text _
        split
        · refine List.IsPrefix.trans ?_ (ih text (readText p.clock readings text))
          rw [readText_samples]
          exact scan_extends _ _
        · exact ih prevText readings
    · exact List.prefix_rfl

section Firsts
variable {earlier : List Text} {text : Text}

theorem firsts_append :
    firsts (earlier ++ [text]) = firsts earlier ++ fresh Sample.value (firsts earlier) (samples text) := by
  rw [firsts, List.foldl_append]
  rfl

/-- Every value of a text has been seen behind it. -/
theorem mem_firsts (h : text ∈ earlier) {y : Sample} (hy : y ∈ samples text) :
    ∃ x ∈ firsts earlier, x.value = y.value := by
  induction earlier using List.reverseRecOn with
  | nil => exact nomatch h
  | append_singleton earlier last ih =>
    rw [firsts_append]
    rcases List.mem_append.mp h with h | h
    · obtain ⟨x, hx, hxy⟩ := ih h
      exact ⟨x, List.mem_append_left _ hx, hxy⟩
    · rw [List.mem_singleton.mp h] at hy
      by_cases hseen : ∃ x ∈ firsts earlier, x.value = y.value
      · obtain ⟨x, hx, hxy⟩ := hseen
        exact ⟨x, List.mem_append_left _ hx, hxy⟩
      · refine ⟨y, List.mem_append_right _ (List.mem_filter.mpr ⟨hy, decide_eq_true fun x hx hxy => ?_⟩), rfl⟩
        exact hseen ⟨x, hx, hxy⟩

theorem firsts_unchanged (h : text = earlier.getLast?.getD []) : firsts (earlier ++ [text]) = firsts earlier := by
  have hnone : fresh Sample.value (firsts earlier) (samples text) = [] := by
    rw [fresh, List.filter_eq_nil_iff]
    intro y hy
    rcases hlast : earlier.getLast? with _ | last
    · rw [hlast, Option.getD_none] at h
      have hempty : samples [] = [] := rfl
      rw [h, hempty] at hy
      exact absurd hy List.not_mem_nil
    · rw [hlast, Option.getD_some] at h
      have hmem : text ∈ earlier := by
        rw [h]
        exact List.mem_of_getLast? hlast
      obtain ⟨x, hx, hxy⟩ := mem_firsts hmem hy
      simpa using ⟨x, hx, hxy⟩
  rw [firsts_append, hnone, List.append_nil]

end Firsts

/-- What every part of the readings must keep. -/
structure Kept (sampleCount : Int) (readings : List Sample) : Prop where
  increasing : Increasing Sample.value readings
  lines : (readings.map (·.line)).Nodup
  count : readings.length ≤ sampleCount

section Loop
variable {sampleCount : Int}

theorem Kept.of_extends {xs ys : List Sample} (h : xs <+: ys) (hk : Kept sampleCount ys) : Kept sampleCount xs where
  increasing := hk.increasing.sublist h.sublist
  lines := hk.lines.sublist (h.map _).sublist
  count := (Int.ofNat_le.mpr h.length_le).trans hk.count

/-- One scan keeps it exactly for a text that fits, and adds the new values. -/
theorem scan_kept_iff {earlier : List Text} {text : Text} (hk : Kept sampleCount (firsts earlier))
    (htext : Increasing Sample.value (samples text)) :
    (Kept sampleCount (scan Sample.value (firsts earlier) (samples text)) ↔ Fits sampleCount earlier text) ∧
      (Fits sampleCount earlier text → scan Sample.value (firsts earlier) (samples text) = firsts (earlier ++ [text])) := by
  have hadds (h : Increasing Sample.value (scan Sample.value (firsts earlier) (samples text))) :
      scan Sample.value (firsts earlier) (samples text) = firsts (earlier ++ [text]) := by
    rw [firsts_append]
    exact scan_eq_fresh htext h
  have hincreasing := scan_increasing_iff hk.increasing htext
  refine ⟨⟨fun h => ?_, fun h => ?_⟩, fun h => hadds (hincreasing.mpr h.ascends)⟩
  · have hlines := h.lines
    have hcount := h.count
    rw [hadds h.increasing] at hlines hcount
    exact ⟨hincreasing.mp h.increasing, hlines, hcount⟩
  · have hinc := hincreasing.mpr h.ascends
    refine ⟨hinc, ?_, ?_⟩
    · rw [hadds hinc]
      exact h.lines
    · rw [hadds hinc]
      exact h.count

/-- With all samples collected no text matters. -/
theorem orderly_of_complete {earlier : List Text} (h : sampleCount ≤ (firsts earlier).length) (later : List Text) :
    Orderly sampleCount earlier later := by
  induction later generalizing earlier with
  | nil => trivial
  | cons text later ih =>
    refine ⟨fun hwanting => absurd h hwanting.not_ge, ih ?_⟩
    rw [firsts_append, List.length_append]
    omega

/-- The loop from any turn on, with the first values as its readings. -/
theorem collectSamples_kept_iff (polls : List Poll) (earlier : List Text) (readings : List Reading)
    (hsamples : readings.map (·.sample) = firsts earlier) (hk : Kept sampleCount (firsts earlier))
    (hincreasing : ∀ text ∈ texts polls, Increasing Sample.value (samples text)) :
    Kept sampleCount ((collectSamples sampleCount (earlier.getLast?.getD []) readings polls).map (·.sample)) ↔
      Orderly sampleCount earlier (texts polls) := by
  have hlength (rs : List Reading) (ts : List Text) (h : rs.map (·.sample) = firsts ts) :
      rs.length = (firsts ts).length := by
    rw [← h, List.length_map]
  induction polls generalizing earlier readings with
  | nil =>
    rw [collectSamples, hsamples]
    exact iff_of_true hk trivial
  | cons p polls ih =>
    rw [collectSamples, hlength _ _ hsamples]
    by_cases hwanting : ((firsts earlier).length : Int) < sampleCount
    · rw [if_pos hwanting]
      rcases htext : p.text.map rstrip with _ | text
      · have hsame : texts (p :: polls) = texts polls := List.filterMap_cons_none htext
        rw [hsame] at hincreasing ⊢
        exact ih earlier readings hsamples hk hincreasing
      · have hcons : texts (p :: polls) = text :: texts polls := List.filterMap_cons_some htext
        rw [hcons, List.forall_mem_cons] at hincreasing
        obtain ⟨hfirst, hrest⟩ := hincreasing
        rw [hcons, Orderly, History.Along]
        have hlast : (earlier ++ [text]).getLast?.getD [] = text := by simp
        dsimp only
        by_cases hchanged : text ≠ earlier.getLast?.getD []
        · rw [if_pos hchanged]
          obtain ⟨hfits, hadds⟩ := scan_kept_iff hk hfirst
          by_cases hf : Fits sampleCount earlier text
          · have hnext : (readText p.clock readings text).map (·.sample) = firsts (earlier ++ [text]) := by
              rw [readText_samples, hsamples, hadds hf]
            have hkeep := hfits.mpr hf
            rw [hadds hf] at hkeep
            have hloop := ih (earlier ++ [text]) (readText p.clock readings text) hnext hkeep hrest
            rw [hlast] at hloop
            exact ⟨fun h => ⟨fun _ _ => hf, hloop.mp h⟩, fun h => hloop.mpr h.2⟩
          · refine iff_of_false (fun h => hf (hfits.mp ?_)) fun h => hf (h.1 hwanting hchanged)
            have hextends := collectSamples_extends sampleCount text (readText p.clock readings text) polls
            rw [readText_samples, hsamples] at hextends
            exact h.of_extends hextends
        · rw [if_neg hchanged]
          have hsame := firsts_unchanged (not_not.mp hchanged)
          have hloop := ih (earlier ++ [text]) readings (by rw [hsame, hsamples]) (by rwa [hsame]) hrest
          rw [hlast, not_not.mp hchanged] at hloop
          rw [not_not.mp hchanged]
          exact ⟨fun h => ⟨fun _ hne => absurd rfl hne, hloop.mp h⟩, fun h => hloop.mpr h.2⟩
    · rw [if_neg hwanting, hsamples]
      exact iff_of_true hk (orderly_of_complete (not_lt.mp hwanting) _)

end Loop

/-- The first turn samples each value of its text, which increase. -/
theorem firstTurn_once {sampleCount : Int} (t : Growing) :
    Once sampleCount False ((collectSamples sampleCount [] [] (t.polls.take 1)).map (·.sample)) := by
  have hnone : Once sampleCount False [] := ⟨List.Pairwise.nil, List.nodup_nil, False.elim⟩
  rcases hpolls : t.polls with _ | ⟨p, polls⟩
  · exact hnone
  rw [List.take_succ_cons, List.take_zero, collectSamples]
  split
  · rcases htext : p.text.map rstrip with _ | text
    · exact hnone
    have hmem : text ∈ texts t.polls := by
      have hcons : texts (p :: polls) = text :: texts polls := List.filterMap_cons_some htext
      rw [hpolls, hcons]
      exact List.mem_cons_self
    have hscan : (readText p.clock [] text).map (·.sample) = samples text := by
      rw [readText_samples]
      exact scan_nil (t.increasing text hmem)
    dsimp only
    split
    · rw [collectSamples, hscan]
      refine ⟨t.increasing text hmem, ?_, False.elim⟩
      exact List.pairwise_map.mpr ((lines_increase text).imp fun h => h.ne)
    · exact hnone
  · exact hnone

/-- Each counter value is sampled once exactly if the arguments are rejected, the
sleep raises or the texts are orderly. -/
theorem samples_once_iff (sampleCount : Int) (interval : Seconds) (sleeps : Bool) (t : Growing) :
    SamplesOnce sampleCount interval sleeps t.polls ↔
      sampleCount < 2 ∨ interval.nonpos ∨ ¬ sleeps ∨ Orderly sampleCount [] (texts t.polls) := by
  unfold SamplesOnce measureTimerAccuracy
  by_cases hargs : sampleCount < 2 ∨ interval.nonpos
  · rw [if_pos hargs]
    refine iff_of_true trivial ?_
    rcases hargs with h | h
    exacts [.inl h, .inr (.inl h)]
  rw [if_neg hargs]
  by_cases hsleep : ¬ sleeps ∧ t.polls ≠ []
  · rw [if_pos hsleep]
    exact iff_of_true (firstTurn_once t) (.inr (.inr (.inl hsleep.1)))
  · rw [if_neg hsleep]
    rw [not_or, not_lt] at hargs
    have hstart : Kept sampleCount (firsts []) := ⟨List.Pairwise.nil, List.nodup_nil, by simp [firsts]; omega⟩
    have hloop := collectSamples_kept_iff t.polls [] [] rfl hstart t.increasing
    have hcondition : sampleCount < 2 ∨ interval.nonpos ∨ ¬ sleeps ∨ Orderly sampleCount [] (texts t.polls) ↔
        Orderly sampleCount [] (texts t.polls) := by
      constructor
      · rintro (h | h | h | h)
        · exact absurd h hargs.1.not_gt
        · exact absurd h hargs.2
        · have hnone : t.polls = [] := not_not.mp fun hne => hsleep ⟨h, hne⟩
          rw [hnone]
          trivial
        · exact h
      · exact fun h => .inr (.inr (.inr h))
    rw [hcondition, ← hloop]
    dsimp only [List.getLast?_nil, Option.getD_none]
    by_cases hwanting : ((collectSamples sampleCount [] [] t.polls).length : Int) < sampleCount
    · rw [if_pos hwanting]
      refine ⟨fun h => ⟨h.increasing, h.lines, ?_⟩, fun h => ⟨h.increasing, h.lines, False.elim⟩⟩
      rw [List.length_map]
      exact hwanting.le
    · rw [if_neg hwanting]
      refine ⟨fun h => ⟨h.increasing, h.lines, (h.count trivial).le⟩, fun h => ⟨h.increasing, h.lines, fun _ => ?_⟩⟩
      have hcount := h.count
      rw [List.length_map] at hcount ⊢
      omega

/-- Three polls, each of which finds one line more. -/
def lineByLine : Growing where
  polls :=
    [⟨some "mtime=1\n".toList, fun _ => 1⟩, ⟨some "mtime=1\nmtime=2\n".toList, fun _ => 2⟩,
      ⟨some "mtime=1\nmtime=2\nmtime=3\n".toList, fun _ => 3⟩]
  grows := by decide +kernel
  increasing := by unfold Increasing; decide +kernel

/-- The third poll takes all three lines again, and completes the five samples. -/
theorem lineByLine_repeats : ¬ SamplesOnce 5 (.finite 1) true lineByLine.polls := by
  have hreadings : (collectSamples 5 [] [] lineByLine.polls).map (·.sample) =
      [⟨1, 0⟩, ⟨2, 1⟩, ⟨1, 0⟩, ⟨2, 1⟩, ⟨3, 2⟩] := by decide +kernel
  have hlength : (collectSamples 5 [] [] lineByLine.polls).length = 5 := by
    rw [← List.length_map (f := (·.sample)), hreadings]
    rfl
  intro h
  rw [SamplesOnce, measureTimerAccuracy, if_neg (by decide +kernel), if_neg (by simp)] at h
  dsimp only at h
  rw [hlength, if_neg (by decide)] at h
  have hincreasing := h.increasing
  rw [hreadings] at hincreasing
  simp [Increasing] at hincreasing

section Growth
variable {text next : Text} {x y : Sample}

theorem mem_samples :
    x ∈ samples text ↔ ∃ line, (splitlines text)[x.line]? = some line ∧ mtimeOf line = some x.value := by
  rw [samples, List.mem_filterMap]
  constructor
  · rintro ⟨⟨line, i⟩, hline, hx⟩
    obtain ⟨value, hvalue, rfl⟩ := Option.map_eq_some_iff.mp hx
    exact ⟨line, List.mk_mem_zipIdx_iff_getElem?.mp hline, hvalue⟩
  · rintro ⟨line, hline, hvalue⟩
    exact ⟨(line, x.line), List.mk_mem_zipIdx_iff_getElem?.mpr hline, Option.map_eq_some_iff.mpr ⟨_, hvalue, rfl⟩⟩

/-- A line that is not the last one stays in a longer text. -/
theorem samples_extend (hgrows : text <+: next) (hx : x ∈ samples text) (hline : x.line + 1 < (splitlines text).length) :
    x ∈ samples next := by
  obtain ⟨line, hget, hvalue⟩ := mem_samples.mp hx
  have hkept : (splitlines text).dropLast[x.line]? = some line := by
    rw [List.getElem?_dropLast, if_pos (by omega), hget]
  obtain ⟨rest, hrest⟩ := splitlines_extends hgrows
  refine mem_samples.mpr ⟨line, ?_, hvalue⟩
  rw [← hrest, List.getElem?_append_left (by rw [List.length_dropLast]; omega), hkept]

theorem line_lt (hincreasing : Increasing Sample.value (samples text)) (hx : x ∈ samples text) (hy : y ∈ samples text)
    (h : x.value < y.value) : x.line < y.line := by
  obtain ⟨i, hi, rfl⟩ := List.getElem_of_mem hx
  obtain ⟨j, hj, rfl⟩ := List.getElem_of_mem hy
  rcases Nat.lt_trichotomy i j with hij | rfl | hij
  · exact List.pairwise_iff_getElem.mp (lines_increase text) i j hi hj hij
  · exact absurd h (lt_irrefl _)
  · exact absurd h (List.pairwise_iff_getElem.mp hincreasing j i hj hi hij).not_gt

/-- A text with two values that grows while samples are wanting puts the first
value behind the second. -/
theorem Growing.spoiled {sampleCount : Int} (t : Growing) {earlier later : List Text}
    (h : texts t.polls = earlier ++ text :: next :: later) (hchanged : next ≠ text) (hx : x ∈ samples text)
    (hy : y ∈ samples text) (hxy : x.value < y.value) (hwanting : (firsts (earlier ++ [text])).length < sampleCount) :
    ¬ Orderly sampleCount [] (texts t.polls) := by
  intro horderly
  have hincreasing := t.increasing text (by rw [h]; simp)
  have hgrows : text <+: next := by
    have hall := t.grows
    rw [h, List.pairwise_append] at hall
    exact (List.pairwise_cons.mp hall.2.1).1 next List.mem_cons_self
  have hline : x.line + 1 < (splitlines text).length := by
    obtain ⟨line, hget, -⟩ := mem_samples.mp hy
    have hlast := (List.getElem?_eq_some_iff.mp hget).1
    have hlt := line_lt hincreasing hx hy hxy
    omega
  have hkept := samples_extend hgrows hx hline
  obtain ⟨w, hw, hwy⟩ := mem_firsts (List.mem_append_right earlier (List.mem_singleton_self text)) hy
  rw [h, List.append_cons, Orderly, History.along_append, History.run_concat, List.nil_append] at horderly
  have hfits : Fits sampleCount (earlier ++ [text]) next := horderly.2.1 hwanting (by simpa using hchanged)
  have hle := hfits.ascends w hw x hkept
  omega

end Growth

end IoProcessor.Host.TimerAccuracy
