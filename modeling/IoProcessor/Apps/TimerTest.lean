import IoProcessor.Hal.TimerAccess
import IoProcessor.Host.RunTests

/-! The image timer_test: its heartbeats, and what trace0 shows while they are
written. -/
namespace IoProcessor.Apps.TimerTest
open Library Hal HardwareTimer MemoryMap Trace Host

def timerTestTicksPerSecond : BitVec 64 := 24000000

/-- `sizeof(g_trace_buffer)`. -/
def traceBufferSize : Nat := 128

def readMtime (c : Counter Nat) (k : Nat) : BitVec 64 × Nat := readCounter c k

/-- The stores of `write_trace` from an index on, for a text up to its NUL. -/
def writeTraceFrom : Nat → List Byte → List Store
  | index, [] => [(bufferByte index, 0)]
  | index, c :: message =>
    if c ≠ 0 ∧ index + 1 < traceBufferSize then (bufferByte index, c) :: writeTraceFrom (index+1) message
    else [(bufferByte index, 0)]

def writeTrace (message : List Byte) : List Store := writeTraceFrom 0 message

def started : List Byte := chars "timer_test: started; polling CLINT mtime\n"
def aliveA : List Byte := chars "timer_test: alive A; CLINT mtime advancing\n"
def aliveB : List Byte := chars "timer_test: alive B; CLINT mtime advancing\n"

/-- The variables of `main`, the accesses to `mtime` and the stores so far. `beats`
counts the heartbeats without the wrap of `heartbeat`. -/
structure State where
  lastHeartbeat : BitVec 64
  heartbeat : Word
  now : BitVec 64
  access : Nat
  stores : List Store
  beats : Nat

/-- `main` up to its loop. -/
def start (c : Counter Nat) (k : Nat) : State :=
  let (lastHeartbeat, k) := readMtime c k
  { lastHeartbeat := lastHeartbeat
    heartbeat := 0
    now := lastHeartbeat
    access := k
    stores := writeTrace started
    beats := 0 }

def turn (c : Counter Nat) (s : State) : State :=
  let (now, k) := readMtime c s.access
  if now - s.lastHeartbeat < timerTestTicksPerSecond then { s with now := now, access := k }
  else
    { lastHeartbeat := s.lastHeartbeat + timerTestTicksPerSecond
      heartbeat := s.heartbeat + 1
      now := now
      access := k
      stores := s.stores ++ writeTrace (if s.heartbeat &&& 1 = 0 then aliveA else aliveB)
      beats := s.beats + 1 }

def afterTurns (c : Counter Nat) (k : Nat) : Nat → State
  | 0 => start c k
  | n+1 => turn c (afterTurns c k n)

/-- The time at which `main` began. -/
def startTime (c : Counter Nat) (k : Nat) : Nat := (readMtime c k).1.toNat

/-- The seconds from then to the last reading. -/
def seconds (c : Counter Nat) (k n : Nat) : Nat := ((afterTurns c k n).now.toNat - startTime c k) / 24000000

def message (i : Nat) : List Byte := if i % 2 = 0 then aliveA else aliveB

/-- What the loop keeps. -/
structure Counting (c : Counter Nat) (k : Nat) (s : State) : Prop where
  last : s.lastHeartbeat.toNat = startTime c k + 24000000 * s.beats
  reached : s.lastHeartbeat.toNat ≤ s.now.toNat
  reading : ∃ j < s.access, s.now = c.value j
  heartbeat : s.heartbeat = BitVec.ofNat 32 s.beats
  stores : s.stores = writeTrace started ++ (List.range s.beats).flatMap fun i => writeTrace (message i)

section
variable {c : Counter Nat} {k : Nat} {s : State}

theorem counting_start (c : Counter Nat) (k : Nat) : Counting c k (start c k) := by
  obtain ⟨j, -, hlt, hvalue⟩ := readCounter_moment c k
  exact ⟨rfl, le_rfl, ⟨j, hlt, hvalue⟩, rfl, (List.append_nil _).symm⟩

theorem message_of_heartbeat (n : Nat) :
    (if BitVec.ofNat 32 n &&& 1 = 0 then aliveA else aliveB) = message n := by
  have hbit : BitVec.ofNat 32 n &&& 1 = 0 ↔ n % 2 = 0 := by
    rw [← BitVec.toNat_inj, BitVec.toNat_and, BitVec.toNat_ofNat, show (1 : Word).toNat = 1 from rfl,
      Nat.and_one_is_mod, show (0 : Word).toNat = 0 from rfl]
    omega
  rw [message]
  simp only [hbit]

/-- A turn of the loop: a heartbeat when the seconds are ahead of them. -/
theorem turn_counting (h : Counting c k s) :
    Counting c k (turn c s) ∧
      (turn c s).beats = min (s.beats + 1) (((turn c s).now.toNat - startTime c k) / 24000000) := by
  obtain ⟨j, hj, hnow⟩ := h.reading
  obtain ⟨j', hj', hlt, hvalue⟩ := readCounter_moment c s.access
  have hlater : s.now.toNat ≤ (c.value j').toNat := by
    rw [hnow]
    exact c.advances j j' (by omega)
  have hlast := h.last
  have hreached := h.reached
  have hend := (c.value j').isLt
  have hdiff : (c.value j' - s.lastHeartbeat).toNat = (c.value j').toNat - s.lastHeartbeat.toNat :=
    BitVec.toNat_sub_of_le (by rw [BitVec.le_def]; omega)
  have hread : readMtime c s.access = (c.value j', (readMtime c s.access).2) := Prod.ext hvalue rfl
  rw [turn, hread]
  simp only
  split
  · rename_i hearly
    rw [BitVec.lt_def, hdiff, show timerTestTicksPerSecond.toNat = 24000000 from rfl] at hearly
    exact ⟨⟨hlast, hreached.trans hlater, ⟨j', hlt, rfl⟩, h.heartbeat, h.stores⟩, by simp only; omega⟩
  · rename_i hdue
    rw [BitVec.lt_def, hdiff, show timerTestTicksPerSecond.toNat = 24000000 from rfl] at hdue
    have hsum : (s.lastHeartbeat + timerTestTicksPerSecond).toNat = s.lastHeartbeat.toNat + 24000000 := by
      rw [BitVec.toNat_add, show timerTestTicksPerSecond.toNat = 24000000 from rfl]
      omega
    refine ⟨⟨?_, ?_, ⟨j', hlt, rfl⟩, ?_, ?_⟩, ?_⟩
    · simp only [hsum]
      omega
    · simp only [hsum]
      omega
    · simp only [h.heartbeat, BitVec.ofNat_add]
      rfl
    · simp only [h.stores, h.heartbeat, message_of_heartbeat, List.range_succ, List.flatMap_append, List.flatMap_cons,
        List.flatMap_nil, List.append_nil, List.append_assoc]
    · simp only
      omega

theorem counting_afterTurns (c : Counter Nat) (k n : Nat) : Counting c k (afterTurns c k n) := by
  induction n with
  | zero => exact counting_start c k
  | succ n ih => exact (turn_counting ih).1

end

/-- The heartbeats follow the seconds: none is early, each turn of the loop makes
at most one, and late ones are made up for turn by turn, so that the grid never
drifts from the start of the program. -/
theorem heartbeats_follow_seconds (c : Counter Nat) (k : Nat) :
    (afterTurns c k 0).beats = 0 ∧
      ∀ n, (afterTurns c k (n+1)).beats = min ((afterTurns c k n).beats + 1) (seconds c k (n+1)) ∧
        (afterTurns c k n).lastHeartbeat.toNat = startTime c k + 24000000 * (afterTurns c k n).beats :=
  ⟨rfl, fun n => ⟨(turn_counting (counting_afterTurns c k n)).2, (counting_afterTurns c k n).last⟩⟩

/-- The texts of `main`: characters, and room for them in the buffer. -/
def Fits (text : List Byte) : Prop := (∀ c ∈ text, c ≠ 0) ∧ text.length < traceBufferSize

theorem fits_of_all {text : List Byte} (hchars : text.all fun c => decide (c ≠ 0))
    (hroom : text.length < traceBufferSize) :
    Fits text :=
  ⟨fun c hc => of_decide_eq_true (List.all_eq_true.mp hchars c hc), hroom⟩

theorem started_length : started.length = 41 := by decide +kernel
theorem aliveA_length : aliveA.length = 43 := by decide +kernel

/-- The two texts of the heartbeats differ in one character. -/
theorem aliveB_eq : aliveB = aliveA.set 18 66 := by decide +kernel

theorem aliveB_length : aliveB.length = 43 := by rw [aliveB_eq, List.length_set, aliveA_length]

/-- The text that the host expects ends before that character. -/
theorem expected_eq : TestName.timer.expected = aliveA.take 17 := by decide +kernel

theorem expected_length : TestName.timer.expected.length = 17 := by
  rw [expected_eq, List.length_take, aliveA_length]
  rfl

theorem expected_prefix (i : Nat) : TestName.timer.expected <+: message i := by
  rw [message, expected_eq]
  split
  · exact List.take_prefix _ _
  · have hset : (aliveA.set 18 66).take 17 = aliveA.take 17 := List.take_set_of_le (by decide)
    rw [← hset, ← aliveB_eq]
    exact List.take_prefix _ _

theorem fits_started : Fits started := fits_of_all (by decide +kernel) (by rw [started_length]; decide)
theorem fits_aliveA : Fits aliveA := fits_of_all (by decide +kernel) (by rw [aliveA_length]; decide)

theorem fits_aliveB : Fits aliveB := by
  refine ⟨fun c hc => ?_, by rw [aliveB_length]; decide⟩
  rw [aliveB_eq] at hc
  rcases List.mem_or_eq_of_mem_set hc with hc | rfl
  · exact fits_aliveA.1 c hc
  · decide

theorem fits_message (i : Nat) : Fits (message i) := by
  rw [message]
  split
  · exact fits_aliveA
  · exact fits_aliveB

theorem writeTraceFrom_eq {text : List Byte} {index : Nat} (hchars : ∀ c ∈ text, c ≠ 0)
    (hroom : index + text.length < traceBufferSize) :
    writeTraceFrom index text =
      (List.range (text.length + 1)).map fun j => (bufferByte (index + j), text.getD j 0) := by
  induction text generalizing index with
  | nil => rfl
  | cons c text ih =>
    rw [List.length_cons] at hroom
    rw [writeTraceFrom, if_pos ⟨hchars c List.mem_cons_self, by omega⟩,
      ih (fun c' h => hchars c' (List.mem_cons_of_mem _ h)) (by omega), List.length_cons,
      List.range_succ_eq_map (n := text.length + 1), List.map_cons, List.map_map]
    refine congrArg _ (List.map_congr_left fun j _ => ?_)
    simp only [Function.comp_apply, Nat.succ_eq_add_one, List.getD_cons_succ, Nat.add_assoc, Nat.add_comm 1 j]

theorem writeTrace_eq {text : List Byte} (h : Fits text) :
    writeTrace text = (List.range (text.length + 1)).map fun j => (bufferByte j, text.getD j 0) := by
  rw [writeTrace, writeTraceFrom_eq h.1 (by rw [Nat.zero_add]; exact h.2)]
  simp only [Nat.zero_add]

theorem writeTrace_length {text : List Byte} (h : Fits text) : (writeTrace text).length = text.length + 1 := by
  rw [writeTrace_eq h, List.length_map, List.length_range]

/-- The stores up to the last character of `timer_test: alive`. -/
def evidence : List Store := writeTrace started ++ (writeTrace aliveA).take TestName.timer.expected.length

theorem evidence_length : evidence.length = 59 := by
  rw [evidence, List.length_append, List.length_take, writeTrace_length fits_started, writeTrace_length fits_aliveA,
    started_length, aliveA_length, expected_length]
  rfl

theorem mem_writeTrace {text : List Byte} (h : Fits text) {s : Store} :
    s ∈ writeTrace text ↔ ∃ j ≤ text.length, s = (bufferByte j, text.getD j 0) := by
  simp only [writeTrace_eq h, List.mem_map, List.mem_range, Nat.lt_succ_iff, eq_comm (b := s)]

/-- A byte that is stored holds the value of one of its stores. -/
theorem exists_store {m : Memory} {stores : List Store} {a : Word} (h : a ∈ stores.map Prod.fst) :
    (a, stored m stores a) ∈ stores := by
  induction stores generalizing m with
  | nil => simp at h
  | cons s stores ih =>
    by_cases hrest : a ∈ stores.map Prod.fst
    · exact List.mem_cons_of_mem _ (ih hrest)
    · have hs : a = s.1 := (List.mem_cons.mp h).resolve_right hrest
      have hlast := stored_of_not_mem (m := m.store8 s.1 s.2) hrest
      have hvalue : stored m (s :: stores) a = s.2 := by
        rw [← Memory.store8_self m s.1 s.2, ← hs]
        rw [hs] at hlast ⊢
        exact hlast
      rw [hvalue, hs]
      exact List.mem_cons_self

/-- The text in the buffer from a byte on. -/
def textFrom (k : Nat) (m : Memory) : List Byte :=
  ((List.range (bufferSize - k)).map fun i => m (bufferByte (k + i))).takeWhile (· ≠ 0)

/-- No start of the first text, with what is left over behind it, shows the
evidence. -/
def Clean (m : Memory) : Prop :=
  ∀ k ≤ started.length, ¬ TestName.timer.expected <:+: started.take k ++ textFrom k m

/-- Characters at the start of the buffer, and what is behind them. -/
theorem readTrace_append {m : Memory} {text : List Byte} (hchars : ∀ c ∈ text, c ≠ 0) (hroom : text.length ≤ bufferSize)
    (hplace : ∀ j < text.length, m (bufferByte j) = text.getD j 0) : readTrace m = text ++ textFrom text.length m := by
  have hfront : (List.range text.length).map (fun j => m (bufferByte j)) = text := by
    refine List.ext_getElem (by simp) fun j hj hj' => ?_
    rw [List.getElem_map, List.getElem_range, hplace j hj', List.getD_eq_getElem?_getD, List.getElem?_eq_getElem hj',
      Option.getD_some]
  have hread : readTrace m = ((List.range bufferSize).map fun k => m (bufferByte k)).takeWhile (· ≠ 0) := rfl
  have hsplit : List.range bufferSize =
      List.range text.length ++ (List.range (bufferSize - text.length)).map (text.length + ·) := by
    rw [← List.range_add, Nat.add_sub_cancel' hroom]
  rw [hread, hsplit, List.map_append, hfront, List.takeWhile_append_of_pos (by simpa using hchars), List.map_map]
  rfl

/-- A text with its NUL at the start of the buffer is what trace0 shows. -/
theorem readTrace_of_text {m : Memory} {text : List Byte} (h : Fits text)
    (hplace : ∀ j ≤ text.length, m (bufferByte j) = text.getD j 0) : readTrace m = text := by
  obtain ⟨hchars, hroom⟩ := h
  have hs : bufferSize = 0x8000 := rfl
  rw [traceBufferSize] at hroom
  obtain ⟨rest, hrest⟩ := Nat.exists_eq_add_of_lt (show text.length < bufferSize by omega)
  have hend : m (bufferByte (text.length + 0)) = 0 := by
    rw [Nat.add_zero, hplace _ le_rfl, List.getD_eq_getElem?_getD, List.getElem?_eq_none le_rfl, Option.getD_none]
  have hnone : textFrom text.length m = [] := by
    rw [textFrom, hrest, Nat.add_assoc, Nat.add_sub_cancel_left, List.range_succ_eq_map, List.map_cons, hend,
      List.takeWhile_cons_of_neg (by decide)]
  rw [readTrace_append hchars (by omega) fun j hj => hplace j hj.le, hnone, List.append_nil]

/-- The bytes of the buffer behind the first stores of a text. -/
theorem stored_take {m : Memory} {text : List Byte} (h : Fits text) {k j : Nat} (hk : k ≤ text.length + 1)
    (hj : j < bufferSize) :
    stored m ((writeTrace text).take k) (bufferByte j) = if j < k then text.getD j 0 else m (bufferByte j) := by
  have hs : bufferSize = 0x8000 := rfl
  have hroom := h.2
  rw [traceBufferSize] at hroom
  rw [writeTrace_eq h, ← List.map_take, List.take_range, Nat.min_eq_left hk]
  split
  · rename_i hjk
    refine stored_of_mem (List.mem_map.mpr ⟨_, List.mem_map.mpr ⟨j, List.mem_range.mpr hjk, rfl⟩, rfl⟩) ?_
    intro s hmem ha
    obtain ⟨i, hi, rfl⟩ := List.mem_map.mp hmem
    rw [List.mem_range] at hi
    rw [(bufferByte_inj (by omega) hj).mp ha]
  · rename_i hjk
    refine stored_of_not_mem fun hmem => ?_
    rw [List.map_map] at hmem
    obtain ⟨i, hi, ha⟩ := List.mem_map.mp hmem
    rw [List.mem_range] at hi
    exact hjk ((bufferByte_inj (by omega) hj).mp ha ▸ hi)

/-- What trace0 shows while the first text is written. -/
theorem readTrace_start {m : Memory} {k : Nat} (hk : k ≤ started.length) :
    readTrace (stored m ((writeTrace started).take k)) = started.take k ++ textFrom k m := by
  have hs : bufferSize = 0x8000 := rfl
  have hroom := fits_started.2
  rw [traceBufferSize] at hroom
  have hlength : (started.take k).length = k := by rw [List.length_take, Nat.min_eq_left hk]
  have hbyte (j : Nat) (hj : j < bufferSize) := stored_take (m := m) fits_started (hk.trans (Nat.le_succ _)) hj
  have hfront : ∀ j < (started.take k).length,
      stored m ((writeTrace started).take k) (bufferByte j) = (started.take k).getD j 0 := by
    intro j hj
    rw [hlength] at hj
    rw [hbyte j (by omega), if_pos hj, List.getD_eq_getElem?_getD, List.getD_eq_getElem?_getD, List.getElem?_take_of_lt hj]
  have hbehind : textFrom k (stored m ((writeTrace started).take k)) = textFrom k m := by
    refine congrArg (List.takeWhile _) (List.map_congr_left fun i hi => ?_)
    rw [List.mem_range] at hi
    rw [hbyte _ (by omega), if_neg (by omega)]
  have hchars : ∀ c ∈ started.take k, c ≠ 0 := fun c hc => fits_started.1 c (List.mem_of_mem_take hc)
  rw [readTrace_append hchars (by omega) hfront, hlength, hbehind]

/-- The first text with a start of the second over it. -/
def mixed (k : Nat) : List Byte := aliveA.take k ++ started.drop k

theorem mixed_not_evidence : ∀ k < 17, ¬ TestName.timer.expected <:+: mixed k := by decide +kernel

theorem mixed_length {k : Nat} (hk : k < 17) : (mixed k).length = 41 := by
  rw [mixed, List.length_append, List.length_take, List.length_drop, aliveA_length, started_length]
  omega

theorem fits_mixed {k : Nat} (hk : k < 17) : Fits (mixed k) := by
  refine ⟨fun c hc => ?_, by rw [mixed_length hk]; decide⟩
  rcases List.mem_append.mp hc with hc | hc
  · exact fits_aliveA.1 c (List.mem_of_mem_take hc)
  · exact fits_started.1 c (List.mem_of_mem_drop hc)

theorem mixed_getD {k : Nat} (hk : k < 17) (j : Nat) :
    (mixed k).getD j 0 = if j < k then aliveA.getD j 0 else started.getD j 0 := by
  have hlength : (aliveA.take k).length = k := by
    rw [List.length_take, aliveA_length]
    omega
  rw [mixed, List.getD_eq_getElem?_getD]
  split
  · rename_i hjk
    rw [List.getElem?_append_left (by omega), List.getElem?_take_of_lt hjk, List.getD_eq_getElem?_getD]
  · rename_i hjk
    rw [List.getElem?_append_right (by omega), hlength, List.getElem?_drop, Nat.add_sub_cancel' (not_lt.mp hjk),
      List.getD_eq_getElem?_getD]

/-- What it shows up to the last character of the evidence. -/
theorem readTrace_mixed {m : Memory} {k : Nat} (hk : k < 17) :
    readTrace (stored m (writeTrace started ++ (writeTrace aliveA).take k)) = mixed k := by
  have hs : bufferSize = 0x8000 := rfl
  have hA := aliveA_length
  have hfirst := started_length
  refine readTrace_of_text (fits_mixed hk) fun j hj => ?_
  rw [mixed_length hk] at hj
  rw [mixed_getD hk, stored_append, stored_take fits_aliveA (by omega) (by omega)]
  split
  · rfl
  · rw [← List.take_length (l := writeTrace started), writeTrace_length fits_started,
      stored_take fits_started le_rfl (by omega), if_pos (by omega)]

section
variable {c : Counter Nat} {k n : Nat} {made : List Store}

/-- Behind the first text the stores are those of the heartbeats. -/
theorem made_cases (h : made <+: (afterTurns c k n).stores) :
    made <+: evidence ∨ ∃ rest, made = evidence ++ rest ∧ ∀ s ∈ rest, ∃ i, s ∈ writeTrace (message i) := by
  rw [(counting_afterTurns c k n).stores] at h
  rcases Nat.eq_zero_or_pos (afterTurns c k n).beats with hnone | hsome
  · rw [hnone, List.range_zero, List.flatMap_nil, List.append_nil] at h
    exact .inl (h.trans (List.prefix_append _ _))
  obtain ⟨beats, hbeats⟩ := Nat.exists_eq_add_of_le' hsome
  have hsplit : writeTrace started ++ (List.range (afterTurns c k n).beats).flatMap (fun i => writeTrace (message i)) =
      evidence ++ ((writeTrace aliveA).drop TestName.timer.expected.length ++
        (List.range beats).flatMap fun i => writeTrace (message (i + 1))) := by
    rw [hbeats, List.range_succ_eq_map, List.flatMap_cons, List.flatMap_map, evidence, List.append_assoc,
      ← List.append_assoc (List.take _ _), List.take_append_drop]
    rfl
  rw [hsplit] at h
  rcases List.prefix_or_prefix_of_prefix h (List.prefix_append _ _) with h' | ⟨rest, rfl⟩
  · exact .inl h'
  refine .inr ⟨rest, rfl, fun s hs => ?_⟩
  rcases List.mem_append.mp ((List.prefix_append_right_inj _).mp h |>.subset hs) with hs | hs
  · exact ⟨0, List.mem_of_mem_drop hs⟩
  · obtain ⟨i, -, hi⟩ := List.mem_flatMap.mp hs
    exact ⟨i + 1, hi⟩

/-- From then on the text stands at the start of the buffer. -/
theorem shown {m : Memory} {rest : List Store} (hrest : ∀ s ∈ rest, ∃ i, s ∈ writeTrace (message i)) :
    TestName.timer.expected <:+: readTrace (stored m (evidence ++ rest)) := by
  have hlen := expected_length
  have hsame (i j : Nat) (hj : j < 17) : (message i).getD j 0 = TestName.timer.expected.getD j 0 := by
    obtain ⟨rest, hrest⟩ := expected_prefix i
    rw [← hrest, List.getD_eq_getElem?_getD, List.getD_eq_getElem?_getD, List.getElem?_append_left (by omega)]
  refine infix_readTrace (i := 0) (by rw [hlen]; decide) (fun j hj => absurd hj (Nat.not_lt_zero j)) (fun j hj => ?_)
    fun v hv => ((expected_chars .timer).2 v hv).1
  rw [hlen] at hj
  have hplace (s : Store) (hs : s ∈ (writeTrace aliveA).take 17 ++ rest) (ha : s.1 = bufferByte j) :
      s.2 = TestName.timer.expected.getD j 0 := by
    obtain ⟨i, hi⟩ : ∃ i, s ∈ writeTrace (message i) := by
      rcases List.mem_append.mp hs with hs | hs
      · exact ⟨0, List.mem_of_mem_take hs⟩
      · exact hrest s hs
    obtain ⟨j', hj', rfl⟩ := (mem_writeTrace (fits_message i)).mp hi
    have hsmall : (message i).length < traceBufferSize := (fits_message i).2
    rw [traceBufferSize] at hsmall
    have hs : bufferSize = 0x8000 := rfl
    obtain rfl := (bufferByte_inj (by omega) (by omega)).mp ha
    exact hsame i j' hj
  have hstored : bufferByte j ∈ ((writeTrace aliveA).take 17 ++ rest).map Prod.fst := by
    refine List.mem_map.mpr ⟨(bufferByte j, aliveA.getD j 0), List.mem_append_left _ ?_, rfl⟩
    rw [writeTrace_eq fits_aliveA, ← List.map_take, List.take_range]
    have hlong := aliveA_length
    exact List.mem_map.mpr ⟨j, List.mem_range.mpr (by omega), rfl⟩
  rw [Nat.zero_add, evidence, hlen, List.append_assoc, stored_append, stored_of_mem hstored hplace,
    List.getD_eq_getElem?_getD, List.getElem?_eq_getElem, Option.getD_some]

/-- Up to its last character trace0 shows a start of the first text with what is
left over, or the first text with a start of the second over it. -/
theorem not_shown {m : Memory} (hm : Clean m) (hmade : made <+: evidence) (hne : made ≠ evidence) :
    ¬ TestName.timer.expected <:+: readTrace (stored m made) := by
  have hlength : (writeTrace started).length = 42 := by rw [writeTrace_length fits_started, started_length]
  have hall := evidence_length
  have hmade' := List.prefix_iff_eq_take.mp hmade
  have hshort : made.length < 59 := by
    have hle := hmade.length_le
    have hless : made.length ≠ evidence.length := fun h => hne (hmade.eq_of_length h)
    omega
  rw [evidence, List.take_append, hlength, List.take_take] at hmade'
  by_cases hfirst : made.length ≤ 41
  · rw [Nat.sub_eq_zero_of_le (by omega), Nat.zero_min, List.take_zero, List.append_nil] at hmade'
    rw [← started_length] at hfirst
    rw [hmade', readTrace_start hfirst]
    exact hm _ hfirst
  · obtain ⟨k, hk⟩ := Nat.exists_eq_add_of_le (show 42 ≤ made.length by omega)
    have hmin : min k TestName.timer.expected.length = k := by
      rw [expected_length]
      omega
    rw [List.take_of_length_le (by omega), hk, Nat.add_sub_cancel_left, hmin] at hmade'
    rw [hmade', readTrace_mixed (by omega)]
    exact mixed_not_evidence k (by omega)

/-- The text is in trace0 from the evidence on, and not before. -/
theorem shown_iff {m : Memory} (hm : Clean m) (hmade : made <+: (afterTurns c k n).stores) :
    TestName.timer.expected <:+: readTrace (stored m made) ↔ evidence <+: made := by
  constructor
  · intro hmatch
    rcases made_cases hmade with hearly | ⟨rest, rfl, -⟩
    · by_cases hall : made = evidence
      · rw [hall]
      · exact absurd hmatch (not_shown hm hearly hall)
    · exact List.prefix_append _ _
  · intro hevidence
    rcases made_cases hmade with hearly | ⟨rest, rfl, hrest⟩
    · obtain rfl : made = evidence := hearly.eq_of_length_le hevidence.length_le
      have hshown : TestName.timer.expected <:+: readTrace (stored m (evidence ++ [])) := shown (by simp)
      rwa [List.append_nil] at hshown
    · exact shown hrest

theorem pollTrace_iff {polls : List Poll} (hreadable : ∀ poll ∈ polls, poll.readable) {m : Memory} {before : List Store}
    (hbefore : ¬ evidence <+: before)
    (hshows : ∀ made, made <+: before ++ polls.flatMap (·.stores) →
      (TestName.timer.expected <:+: readTrace (stored m made) ↔ evidence <+: made)) :
    (pollTrace TestName.timer.expected (stored m before) polls).1 = .matched ↔
      evidence <+: before ++ polls.flatMap (·.stores) := by
  induction polls generalizing before with
  | nil => simpa [pollTrace] using hbefore
  | cons poll polls ih =>
    have hread := hreadable poll List.mem_cons_self
    rw [List.flatMap_cons, ← List.append_assoc] at hshows ⊢
    have hpoll := hshows (before ++ poll.stores) (List.prefix_append _ _)
    rw [pollTrace, if_neg (by simp [hread]), ← stored_append]
    by_cases hnow : evidence <+: before ++ poll.stores
    · rw [if_pos (hpoll.mpr hnow)]
      simpa using hnow.trans (List.prefix_append _ _)
    · rw [if_neg (mt hpoll.mp hnow)]
      exact ih (fun p hp => hreadable p (List.mem_cons_of_mem _ hp)) hnow hshows

end

theorem alive_eq {j : Nat} (hj : j ≠ 18) : aliveA.getD j 0 = aliveB.getD j 0 := by
  rw [aliveB_eq, List.getD_eq_getElem?_getD, List.getD_eq_getElem?_getD, List.getElem?_set_ne hj.symm]

/-- Once the first heartbeat is written, trace0 shows one of the two texts as a
whole, also between the stores that turn one of them into the other. -/
theorem trace_never_torn {c : Counter Nat} {k n : Nat} {m : Memory} {made : List Store}
    (hmade : made <+: (afterTurns c k n).stores) (hfirst : writeTrace started ++ writeTrace aliveA <+: made) :
    readTrace (stored m made) = aliveA ∨ readTrace (stored m made) = aliveB := by
  have hs : bufferSize = 0x8000 := rfl
  obtain ⟨rest, rfl⟩ := (List.prefix_append _ _).trans hfirst
  rw [List.prefix_append_right_inj] at hfirst
  rw [(counting_afterTurns c k n).stores, List.prefix_append_right_inj] at hmade
  have hbyte : ∀ j ≤ 43, stored m (writeTrace started ++ rest) (bufferByte j) = aliveA.getD j 0 ∨
      stored m (writeTrace started ++ rest) (bufferByte j) = aliveB.getD j 0 := by
    intro j hj
    have hmem : bufferByte j ∈ rest.map Prod.fst := by
      refine List.mem_map.mpr ⟨(bufferByte j, aliveA.getD j 0), hfirst.subset ?_, rfl⟩
      exact (mem_writeTrace fits_aliveA).mpr ⟨j, hj.trans aliveA_length.ge, rfl⟩
    rw [stored_append]
    obtain ⟨i, -, hi⟩ := List.mem_flatMap.mp (hmade.subset (exists_store (m := stored m (writeTrace started)) hmem))
    obtain ⟨j', hj', hstore⟩ := (mem_writeTrace (fits_message i)).mp hi
    have hsmall : (message i).length < traceBufferSize := (fits_message i).2
    rw [traceBufferSize] at hsmall
    obtain ⟨ha, hvalue⟩ := Prod.mk.inj hstore
    obtain rfl := (bufferByte_inj (by omega) (by omega)).mp ha
    rw [hvalue, message]
    split
    · exact .inl rfl
    · exact .inr rfl
  have hlenA := aliveA_length
  have hlenB := aliveB_length
  rcases hbyte 18 (by omega) with hletter | hletter
  · refine .inl (readTrace_of_text fits_aliveA fun j hj => ?_)
    by_cases h18 : j = 18
    · rw [h18, hletter]
    · rcases hbyte j (by omega) with h | h
      · exact h
      · rw [h, alive_eq h18]
  · refine .inr (readTrace_of_text fits_aliveB fun j hj => ?_)
    by_cases h18 : j = 18
    · rw [h18, hletter]
    · rcases hbyte j (by omega) with h | h
      · rw [h, alive_eq h18]
      · exact h

/-- A counter that is a second further on at the second reading and at the
third. -/
def everySecond : Counter Nat where
  value k := if k < 3 then 0 else if k < 6 then 24000000 else 48000000
  advances s t h := by
    split <;> split <;> (try split) <;> (try split) <;> first | decide | omega

theorem stores_everySecond (n : Nat) (hn : n ≤ 2) :
    (afterTurns everySecond 0 n).stores =
      writeTrace started ++ (List.range n).flatMap fun i => writeTrace (message i) := by
  have hbeats : (afterTurns everySecond 0 n).beats = n := by interval_cases n <;> decide +kernel
  rw [(counting_afterTurns everySecond 0 n).stores, hbeats]

/-- With half of the second heartbeat written. -/
theorem second_heartbeat_begun :
    let made := writeTrace started ++ writeTrace aliveA ++ (writeTrace aliveB).take 20
    readTrace (stored (fun _ => 0) made) = aliveA ∨ readTrace (stored (fun _ => 0) made) = aliveB := by
  refine trace_never_torn (c := everySecond) (k := 0) (n := 2) ?_ (List.prefix_append _ _)
  have hstores : (afterTurns everySecond 0 2).stores = writeTrace started ++ writeTrace aliveA ++ writeTrace aliveB := by
    rw [stores_everySecond 2 le_rfl]
    simp [List.range_succ, message]
  rw [hstores]
  exact (List.prefix_append_right_inj _).mpr (List.take_prefix _ _)

/-- The timer test passes exactly if a poll is behind the first heartbeat's
`alive`, however its stores fall between the polls, on a clean buffer and on no
other; and that heartbeat is never written before a second has passed. -/
theorem timer_test_passes_iff {c : Counter Nat} {k n : Nat} {m : Memory} {timeout interval : ℚ}
    (htime : 0 < timeout ∧ 0 < interval) :
    ((∀ polls : List Poll, (∀ poll ∈ polls, poll.readable) → polls.flatMap (·.stores) <+: (afterTurns c k n).stores →
        ((waitForTrace TestName.timer.expected timeout interval m polls).1 = .matched ↔
          evidence <+: polls.flatMap (·.stores))) ↔ Clean m) ∧
      (evidence <+: (afterTurns c k n).stores → 1 ≤ seconds c k n) := by
  have hwait (polls : List Poll) : waitForTrace TestName.timer.expected timeout interval m polls =
      pollTrace TestName.timer.expected m polls :=
    if_neg (by rw [not_or, not_le, not_le]; exact htime)
  have hcount := counting_afterTurns c k n
  refine ⟨⟨fun h => ?_, fun hm polls hreadable hown => ?_⟩, fun hevidence => ?_⟩
  · -- A poll behind the stores that complete it would pass without a heartbeat.
    intro k' hk' hshown
    have hpasses := h [⟨(writeTrace started).take k', true⟩] (by simp) (by
      rw [List.flatMap_singleton, hcount.stores]
      exact (List.take_prefix _ _).trans (List.prefix_append _ _))
    rw [hwait, pollTrace, if_neg (by simp), readTrace_start hk', if_pos hshown, List.flatMap_singleton] at hpasses
    have hlen := (hpasses.mp rfl).length_le
    rw [evidence_length, List.length_take] at hlen
    rw [started_length] at hk'
    omega
  · rw [hwait]
    have hbefore : ¬ evidence <+: [] := by
      intro h
      exact absurd evidence_length (by rw [List.prefix_nil.mp h]; decide)
    exact pollTrace_iff hreadable hbefore fun made hmade => shown_iff hm (hmade.trans hown)
  · have hsome : (afterTurns c k n).beats ≠ 0 := by
      intro hnone
      have hlen := hevidence.length_le
      rw [hcount.stores, hnone, List.range_zero, List.flatMap_nil, List.append_nil, evidence_length,
        writeTrace_length fits_started, started_length] at hlen
      omega
    have hlast := hcount.last
    have hreached := hcount.reached
    rw [seconds]
    omega

/-- With `mtime` of the first text the rest of an older one is the evidence. -/
example : ¬ Clean fun a => (List.replicate 40 120 ++ chars "r_test: alive").getD (a - ipcTraceBufferAddr).toNat 0 :=
  fun h => h 40 (by rw [started_length]; decide) (by decide +kernel)

theorem textFrom_zero (k : Nat) : textFrom k (fun _ => 0) = [] := by
  rw [textFrom, List.takeWhile_eq_nil_iff]
  simp

theorem first_heartbeat_passes :
    (waitForTrace TestName.timer.expected 2 1 (fun _ => 0) [⟨(afterTurns everySecond 0 1).stores, true⟩]).1 =
      .matched := by
  have hclean : Clean fun _ => 0 := by
    intro k _ hshown
    rw [textFrom_zero, List.append_nil] at hshown
    exact mixed_not_evidence 0 (by decide) (hshown.trans (List.take_prefix _ _).isInfix)
  have htime : (0 : ℚ) < 2 ∧ (0 : ℚ) < 1 := ⟨by norm_num, by norm_num⟩
  have hall := (timer_test_passes_iff (c := everySecond) (k := 0) (n := 1) htime).1.mpr hclean
  refine (hall [⟨(afterTurns everySecond 0 1).stores, true⟩] (by simp) (by simp)).mpr ?_
  rw [List.flatMap_singleton, stores_everySecond 1 (by decide)]
  have hfirst : (List.range 1).flatMap (fun i => writeTrace (message i)) = writeTrace aliveA := by simp [message]
  rw [hfirst]
  exact (List.prefix_append_right_inj _).mpr (List.take_prefix _ _)

end IoProcessor.Apps.TimerTest
