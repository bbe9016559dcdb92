import IoProcessor.Hal.GpioPins
import IoProcessor.Hal.TraceOutput

/-! The image platform_smoke_test: every pin of a table is pulsed in turn, as
often as its place in the table says, so that a probe can tell which pin it is
on. -/
namespace IoProcessor.Apps.PlatformSmokeTest
open Library Hal Gpio Gpio.Pins History

structure PinUnderTest where
  pin : Pin
  name : String

def portJ : Word := 9

def kPins : List PinUnderTest :=
  [⟨⟨portL, 2, by decide, by decide⟩, "PL2  S_UART0_TX"⟩,
    ⟨⟨portL, 3, by decide, by decide⟩, "PL3  S_UART0_RX"⟩,
    ⟨⟨portL, 6, by decide, by decide⟩, "PL6  IMU_DRDY"⟩,
    ⟨⟨portL, 9, by decide, by decide⟩, "PL9  FPGA_IRQ"⟩,
    ⟨⟨portL, 10, by decide, by decide⟩, "PL10 DEBUG0"⟩,
    ⟨⟨portL, 12, by decide, by decide⟩, "PL12 DEBUG1"⟩,
    ⟨⟨portL, 13, by decide, by decide⟩, "PL13 SPARE"⟩,
    ⟨⟨portM, 0, by decide, by decide⟩, "PM0  SPARE"⟩,
    ⟨⟨portM, 4, by decide, by decide⟩, "PM4  S_TWI2_SCK"⟩,
    ⟨⟨portM, 5, by decide, by decide⟩, "PM5  S_TWI2_SDA"⟩,
    ⟨⟨portJ, 20, by decide, by decide⟩, "PJ20 SPI0_CS0"⟩,
    ⟨⟨portJ, 21, by decide, by decide⟩, "PJ21 SPI0_CLK"⟩,
    ⟨⟨portJ, 22, by decide, by decide⟩, "PJ22 SPI0_MOSI"⟩,
    ⟨⟨portJ, 23, by decide, by decide⟩, "PJ23 SPI0_MISO"⟩,
    ⟨⟨portJ, 24, by decide, by decide⟩, "PJ24 SPI0_CS1"⟩]

/-- The pins of the table, in its order. -/
def pins : List Pin := kPins.map (·.pin)

def kPulseHalfPeriod : Word := 60000
def kBurstGap : Word := 3000000

inductive Act where
  | trace (call : Trace.Call)
  | gpio (call : Call)
  | delayCycles (cycles : Word)

/-- One act of `main` over the memory that holds the registers and the trace. -/
def step (b : Trace.Buffer) : Act → Trace.Buffer
  | .trace call => call.apply b
  | .gpio call => { b with ram := call.run b.ram }
  | .delayCycles _ => b

def puts (s : String) : Act := .trace (.puts (some (Trace.chars s)))

def begin : List Act := [.trace .init, puts "[riscv] platform smoke test starting pin pulse sweep\n"]

def configure (p : Pin) : List Act := [.gpio ⟨p, .configurePin .output⟩, .gpio ⟨p, .clearPin⟩]

def pulse (p : Pin) : List Act :=
  [.gpio ⟨p, .setPin⟩, .delayCycles kPulseHalfPeriod, .gpio ⟨p, .clearPin⟩, .delayCycles kPulseHalfPeriod]

/-- The body of the loop over the table. -/
def burst (i : Nat) (k : PinUnderTest) : List Act :=
  [puts "[riscv] pulsing pin: ", puts k.name, puts "\n"] ++ (List.replicate (i+1) (pulse k.pin)).flatten ++
    [.delayCycles kBurstGap]

def sweep : List (List Act) := kPins.zipIdx.map fun (k, i) => burst i k

/-- `main` with some turns of its loop. -/
def main (turns : Nat) : List Act := begin ++ pins.flatMap configure ++ ((List.replicate turns sweep).flatten).flatten

/-- The chip out of reset, with any content of the registers. -/
def boot (ram : Memory) : Trace.Buffer := ⟨ram, 0, false, fun _ => false⟩

/-- What all pins are like. -/
abbrev Board := Pin → PinState

def board (b : Trace.Buffer) : Board := fun p => pinState b.ram p

/-- An act on the board: a call changes the pin that it names. -/
def Board.step (v : Board) : Act → Board
  | .gpio call => Function.update v call.pin (call.op.apply (v call.pin))
  | .trace _ | .delayCycles _ => v

/-- The rising edges of a level over some acts. -/
def rises {σ : Type*} (step : σ → Act → σ) (level : σ → Bool) (s : σ) : List Act → Nat
  | [] => 0
  | a :: acts => (if !level s && level (step s a) then 1 else 0) + rises step level (step s a) acts

section Refinement
variable {b : Trace.Buffer}

theorem Reg.addr_below (p : Pin) {r : Reg} (hr : r.InRange) : (r.addr p.port).toNat + 4 ≤ 0x07136000 := by
  obtain ⟨base, bank, hblock, hbank, haddr⟩ := Reg.addr_toNat p hr
  have hoffset := Reg.offset_lt hbank hr
  rcases hblock with h | h <;> omega

/-- Trace leaves the pins alone. -/
theorem board_trace (hb : b.offset ≤ Trace.bufferSize - 1) (call : Trace.Call) : board (call.apply b) = board b := by
  have hmade : ∀ s ∈ Trace.stores b call.steps, s.1 < Trace.bufferSize :=
    Trace.stores_lt hb fun i hi => Trace.Call.zero_mem_steps hi
  have hload {r : Reg} (p : Pin) (hr : r.InRange) :
      (call.apply b).ram.load32 (r.addr p.port) = b.ram.load32 (r.addr p.port) := by
    rw [Trace.Call.apply_eq_run, Trace.run_ram]
    exact Trace.load32_stores_below hmade (Reg.addr_below p hr)
  funext p
  have hcfg := hload (r := .cfg (p.pin / 8)) p (Reg.inRange_cfg p)
  have hintCfg := hload (r := .intCfg (p.pin / 8)) p (Reg.inRange_intCfg p)
  simp only [board, pinState, hcfg, hintCfg, hload p Reg.inRange_data, hload p Reg.inRange_intCtl]

theorem step_offset_le (hb : b.offset ≤ Trace.bufferSize - 1) (a : Act) : (step b a).offset ≤ Trace.bufferSize - 1 := by
  cases a with
  | trace call =>
    rw [step, Trace.Call.apply_eq_run]
    have hkeep : ∀ (b : Trace.Buffer) (s : Trace.Step), b.offset ≤ Trace.bufferSize - 1 →
        (s.apply b).offset ≤ Trace.bufferSize - 1 := fun _ s h => Trace.Step.apply_offset_le h s
    exact run_invariant hkeep hb call.steps
  | gpio call => exact hb
  | delayCycles cycles => exact hb

theorem run_offset_le (hb : b.offset ≤ Trace.bufferSize - 1) (acts : List Act) :
    (run step b acts).offset ≤ Trace.bufferSize - 1 := by
  have hkeep : ∀ (b : Trace.Buffer) (a : Act), b.offset ≤ Trace.bufferSize - 1 →
      (step b a).offset ≤ Trace.bufferSize - 1 := fun _ a h => step_offset_le h a
  exact run_invariant hkeep hb acts

theorem board_step (hb : b.offset ≤ Trace.bufferSize - 1) (a : Act) : board (step b a) = Board.step (board b) a := by
  cases a with
  | trace call => exact board_trace hb call
  | gpio call =>
    funext p
    by_cases hp : p = call.pin
    · rw [Board.step, hp, Function.update_self]
      exact pinState_run_self b.ram call
    · rw [Board.step, Function.update_of_ne hp]
      exact pinState_run_other b.ram hp
  | delayCycles cycles => rfl

theorem board_run (hb : b.offset ≤ Trace.bufferSize - 1) (acts : List Act) :
    board (run step b acts) = run Board.step (board b) acts := by
  induction acts generalizing b with
  | nil => rfl
  | cons a acts ih => rw [run_cons, run_cons, ih (step_offset_le hb a), board_step hb]

theorem rises_board (hb : b.offset ≤ Trace.bufferSize - 1) (p : Pin) (acts : List Act) :
    rises step (fun b => (pinState b.ram p).data) b acts = rises Board.step (fun v => (v p).data) (board b) acts := by
  induction acts generalizing b with
  | nil => rfl
  | cons a acts ih =>
    rw [rises, rises, ih (step_offset_le hb a), board_step hb, ← board_step hb]
    rfl

end Refinement

theorem rises_append {σ : Type*} (step : σ → Act → σ) (level : σ → Bool) (s : σ) (before after : List Act) :
    rises step level s (before ++ after) = rises step level s before + rises step level (run step s before) after := by
  induction before generalizing s with
  | nil => exact (Nat.zero_add _).symm
  | cons a before ih => rw [List.cons_append, rises, rises, ih, run_cons, Nat.add_assoc]

/-- A pin as the set-up leaves it. -/
def ready (s : PinState) : PinState := { s with cfg := PinMode.output.toWord.extractLsb' 0 4, data := false }

section Bursts
variable {v : Board} {p : Pin}

theorem run_configure (v : Board) (ps : List Pin) :
    run Board.step v (ps.flatMap configure) = fun p => if p ∈ ps then ready (v p) else v p := by
  induction ps generalizing v with
  | nil => simp
  | cons q ps ih =>
    have hfirst : run Board.step v (configure q) = Function.update v q (ready (v q)) := by
      simp only [configure, run_cons, run_nil, Board.step, Op.apply, Function.update_self, Function.update_idem, ready]
    rw [List.flatMap_cons, run_append, hfirst, ih]
    funext p
    by_cases hp : p = q
    · subst hp
      simp [ready]
    · simp [hp]

theorem update_low (hp : (v p).data = false) : Function.update v p { v p with data := false } = v := by
  rw [← hp]
  exact Function.update_eq_self p v

theorem run_pulse (hp : (v p).data = false) : run Board.step v (pulse p) = v := by
  simp only [pulse, run_cons, run_nil, Board.step, Op.apply, Function.update_self, Function.update_idem]
  exact update_low hp

theorem rises_pulse (hp : (v p).data = false) (q : Pin) :
    rises Board.step (fun v => (v q).data) v (pulse p) = if q = p then 1 else 0 := by
  by_cases hq : q = p
  · subst hq
    simp [pulse, rises, Board.step, Op.apply, hp]
  · simp [pulse, rises, Board.step, hq]

theorem pulses_spec (hp : (v p).data = false) (q : Pin) (n : Nat) :
    run Board.step v (List.replicate n (pulse p)).flatten = v ∧
      rises Board.step (fun v => (v q).data) v (List.replicate n (pulse p)).flatten = if q = p then n else 0 := by
  induction n with
  | zero => simp [rises]
  | succ n ih =>
    rw [List.replicate_succ, List.flatten_cons, run_append, rises_append, run_pulse hp, rises_pulse hp]
    refine ⟨ih.1, ?_⟩
    rw [ih.2]
    split <;> omega

theorem burst_spec (i : Nat) (k : PinUnderTest) (hk : (v k.pin).data = false) (q : Pin) :
    run Board.step v (burst i k) = v ∧
      rises Board.step (fun v => (v q).data) v (burst i k) = if q = k.pin then i + 1 else 0 := by
  obtain ⟨hrun, hrises⟩ := pulses_spec hk q (i + 1)
  constructor
  · rw [burst, run_append, run_append]
    change run Board.step v _ = v
    exact hrun
  · have htexts :
        rises Board.step (fun v => (v q).data) v [puts "[riscv] pulsing pin: ", puts k.name, puts "\n"] = 0 := by
      simp [rises, puts, Board.step]
    have hgap : rises Board.step (fun v => (v q).data) v [.delayCycles kBurstGap] = 0 := by simp [rises, Board.step]
    have hidle : run Board.step v [puts "[riscv] pulsing pin: ", puts k.name, puts "\n"] = v := rfl
    rw [burst, rises_append, rises_append, run_append, hidle, hrun, hrises, htexts, hgap, Nat.zero_add, Nat.add_zero]

/-- Acts that at most set and clear one pin. -/
def OnPin (p : Pin) : Act → Prop
  | .gpio call => call = ⟨p, .setPin⟩ ∨ call = ⟨p, .clearPin⟩
  | .trace _ | .delayCycles _ => True

theorem burst_onPin {i : Nat} {k : PinUnderTest} : ∀ a ∈ burst i k, OnPin k.pin a := by
  intro a ha
  simp only [burst, List.mem_append, List.mem_cons, List.not_mem_nil, or_false, List.mem_flatten,
    List.mem_replicate] at ha
  rcases ha with (ha | ⟨acts, ⟨-, rfl⟩, ha⟩) | rfl
  · rcases ha with rfl | rfl | rfl <;> trivial
  · simp only [pulse, List.mem_cons, List.not_mem_nil, or_false] at ha
    rcases ha with rfl | rfl | rfl | rfl
    · exact .inl rfl
    · trivial
    · exact .inr rfl
    · trivial
  · trivial

theorem run_onPin {acts : List Act} (h : ∀ a ∈ acts, OnPin p a) (v : Board) :
    ∃ level, run Board.step v acts = Function.update v p { v p with data := level } := by
  induction acts generalizing v with
  | nil => exact ⟨(v p).data, (Function.update_eq_self p v).symm⟩
  | cons a acts ih =>
    obtain ⟨level, hrun⟩ := ih (fun a ha => h a (List.mem_cons_of_mem _ ha)) (Board.step v a)
    refine ⟨level, ?_⟩
    rw [run_cons, hrun]
    have ha := h a List.mem_cons_self
    cases a with
    | trace call => rfl
    | gpio call =>
      rcases ha with rfl | rfl <;> simp [Board.step, Op.apply]
    | delayCycles cycles => rfl

/-- What holds inside each of some blocks, all of which end where they begin,
holds throughout. -/
theorem prefix_flatten {P : Board → Prop} {blocks : List (List Act)} (h0 : P v)
    (hback : ∀ block ∈ blocks, run Board.step v block = v)
    (hinside : ∀ block ∈ blocks, ∀ acts, acts <+: block → P (run Board.step v acts)) {acts : List Act}
    (hacts : acts <+: blocks.flatten) : P (run Board.step v acts) := by
  induction blocks generalizing acts with
  | nil =>
    rw [List.flatten_nil, List.prefix_nil] at hacts
    rwa [hacts]
  | cons block blocks ih =>
    rw [List.flatten_cons] at hacts
    rcases List.prefix_or_prefix_of_prefix hacts (List.prefix_append _ _) with hpre | ⟨rest, rfl⟩
    · exact hinside block List.mem_cons_self acts hpre
    · rw [run_append, hback block List.mem_cons_self]
      exact ih (fun b hb => hback b (List.mem_cons_of_mem _ hb)) (fun b hb => hinside b (List.mem_cons_of_mem _ hb))
        ((List.prefix_append_right_inj _).mp hacts)

end Bursts

/-- The board between two bursts. -/
def rest (ram : Memory) : Board := fun p => if p ∈ pins then ready (pinState ram p) else pinState ram p

theorem rest_low (ram : Memory) {p : Pin} (hp : p ∈ pins) : (rest ram p).data = false := by
  rw [rest, if_pos hp]
  rfl

def bursts (turns : Nat) : List (List Act) := (List.replicate turns sweep).flatten

theorem main_eq (turns : Nat) : main turns = begin ++ pins.flatMap configure ++ (bursts turns).flatten := rfl

theorem mem_sweep {block : List Act} (h : block ∈ sweep) : ∃ i k, block = burst i k ∧ k.pin ∈ pins := by
  obtain ⟨⟨k, i⟩, hk, rfl⟩ := List.mem_map.mp h
  exact ⟨i, k, rfl, List.mem_map.mpr ⟨k, (List.mem_zipIdx' hk).2 ▸ List.getElem_mem _, rfl⟩⟩

theorem mem_bursts {turns : Nat} {block : List Act} (h : block ∈ bursts turns) :
    ∃ i k, block = burst i k ∧ k.pin ∈ pins := by
  obtain ⟨l, hl, hblock⟩ := List.mem_flatten.mp h
  rw [List.eq_of_mem_replicate hl] at hblock
  exact mem_sweep hblock

theorem boot_offset (ram : Memory) : (boot ram).offset ≤ Trace.bufferSize - 1 := Nat.zero_le _

theorem run_setup (ram : Memory) :
    run Board.step (board (boot ram)) (begin ++ pins.flatMap configure) = rest ram := by
  rw [run_append, run_configure]
  rfl

/-- Blocks of bursts end where they begin. -/
theorem run_blocks {blocks : List (List Act)} (h : ∀ block ∈ blocks, ∃ i k, block = burst i k ∧ k.pin ∈ pins)
    (ram : Memory) : run Board.step (rest ram) blocks.flatten = rest ram := by
  induction blocks with
  | nil => rfl
  | cons block blocks ih =>
    obtain ⟨i, k, rfl, hk⟩ := h block List.mem_cons_self
    rw [List.flatten_cons, run_append, (burst_spec i k (rest_low ram hk) k.pin).1]
    exact ih fun b hb => h b (List.mem_cons_of_mem _ hb)

/-- Acts that call no pin but those of the table. -/
def OnTable : Act → Prop
  | .gpio call => call.pin ∈ pins
  | .trace _ | .delayCycles _ => True

theorem main_onTable {turns : Nat} : ∀ a ∈ main turns, OnTable a := by
  intro a ha
  rw [main_eq, List.mem_append, List.mem_append] at ha
  rcases ha with (ha | ha) | ha
  · rw [begin, List.mem_cons, List.mem_singleton] at ha
    rcases ha with rfl | rfl <;> trivial
  · obtain ⟨p, hp, ha⟩ := List.mem_flatMap.mp ha
    rw [configure, List.mem_cons, List.mem_singleton] at ha
    rcases ha with rfl | rfl <;> exact hp
  · obtain ⟨block, hblock, ha⟩ := List.mem_flatten.mp ha
    obtain ⟨i, k, rfl, hk⟩ := mem_bursts hblock
    have hon := burst_onPin a ha
    cases a with
    | trace call => trivial
    | gpio call => rcases hon with rfl | rfl <;> exact hk
    | delayCycles cycles => trivial

theorem run_onTable {acts : List Act} (h : ∀ a ∈ acts, OnTable a) (v : Board) {p : Pin} (hp : p ∉ pins) :
    run Board.step v acts p = v p := by
  induction acts generalizing v with
  | nil => rfl
  | cons a acts ih =>
    rw [run_cons, ih fun a ha => h a (List.mem_cons_of_mem _ ha)]
    have ha := h a List.mem_cons_self
    cases a with
    | trace call => rfl
    | gpio call =>
      have hne : p ≠ call.pin := by
        rintro rfl
        exact hp ha
      exact Function.update_of_ne hne _ _
    | delayCycles cycles => rfl

/-- At most one pin of the table is not at rest. -/
theorem run_main (ram : Memory) {turns : Nat} {acts : List Act} (hsetup : begin ++ pins.flatMap configure <+: acts)
    (hacts : acts <+: main turns) :
    ∃ p ∈ pins, ∃ level,
      run Board.step (board (boot ram)) acts = Function.update (rest ram) p { rest ram p with data := level } := by
  obtain ⟨later, rfl⟩ := hsetup
  rw [main_eq, List.prefix_append_right_inj] at hacts
  rw [run_append, run_setup]
  refine prefix_flatten (v := rest ram) (P := fun v => ∃ p ∈ pins, ∃ level,
      v = Function.update (rest ram) p { rest ram p with data := level }) ?_ (fun block hblock => ?_)
      (fun block hblock acts hpre => ?_) hacts
  · exact ⟨⟨portL, 2, by decide, by decide⟩, by decide, _, (Function.update_eq_self _ _).symm⟩
  · obtain ⟨i, k, rfl, hk⟩ := mem_bursts hblock
    exact (burst_spec i k (rest_low ram hk) k.pin).1
  · obtain ⟨i, k, rfl, hk⟩ := mem_bursts hblock
    obtain ⟨level, hrun⟩ := run_onPin (fun a ha => burst_onPin a (hpre.subset ha)) (rest ram)
    exact ⟨k.pin, hk, level, hrun⟩

/-- The pins can be told apart by counting: whatever the registers held, and
after any number of turns, the burst of an entry raises its pin as often as its
place says and no other pin at all; all the while the pins are outputs with at
most one of them high, and no pin outside the table is ever touched. -/
theorem pins_identified (ram : Memory) (turns : Nat) :
    (∀ acts, acts <+: main turns → ∀ p, p ∉ pins → pinState (run step (boot ram) acts).ram p = pinState ram p) ∧
    (∀ acts, begin ++ pins.flatMap configure <+: acts → acts <+: main turns →
      (∀ p ∈ pins, (pinState (run step (boot ram) acts).ram p).cfg = PinMode.output.toWord.extractLsb' 0 4) ∧
      ∀ p ∈ pins, ∀ q ∈ pins, (pinState (run step (boot ram) acts).ram p).data →
        (pinState (run step (boot ram) acts).ram q).data → p = q) ∧
    ∀ i k, kPins[i]? = some k → ∀ p,
      rises step (fun b => (pinState b.ram p).data) (run step (boot ram) (main turns ++ (sweep.take i).flatten))
        (burst i k) = if p = k.pin then i + 1 else 0 := by
  have hboard (acts : List Act) : board (run step (boot ram) acts) = run Board.step (board (boot ram)) acts :=
    board_run (boot_offset ram) acts
  have hpin (acts : List Act) (p : Pin) :
      pinState (run step (boot ram) acts).ram p = run Board.step (board (boot ram)) acts p := congrFun (hboard acts) p
  refine ⟨fun acts hacts p hp => ?_, fun acts hsetup hacts => ?_, fun i k hk p => ?_⟩
  · rw [hpin, run_onTable (fun a ha => main_onTable a (hacts.subset ha)) _ hp]
    rfl
  · obtain ⟨high, hhigh, level, hrun⟩ := run_main ram hsetup hacts
    have hlow {p : Pin} (hp : p ∈ pins) (hdata : (run Board.step (board (boot ram)) acts p).data) : p = high := by
      by_contra hne
      rw [hrun, Function.update_of_ne hne, rest_low ram hp] at hdata
      exact Bool.false_ne_true hdata
    simp only [hpin]
    refine ⟨fun p hp => ?_, fun p hp q hq hdata hdata' => (hlow hp hdata).trans (hlow hq hdata').symm⟩
    rw [hrun]
    by_cases he : p = high
    · rw [he, Function.update_self, rest, if_pos hhigh]
      rfl
    · rw [Function.update_of_ne he, rest, if_pos hp]
      rfl
  · have hk' : k.pin ∈ pins := List.mem_map.mpr ⟨k, List.mem_of_getElem? hk, rfl⟩
    have hplace : board (run step (boot ram) (main turns ++ (sweep.take i).flatten)) = rest ram := by
      rw [hboard, run_append, main_eq, run_append, run_setup, run_blocks (fun _ h => mem_bursts h),
        run_blocks fun _ h => mem_sweep (List.mem_of_mem_take h)]
    have hoffset : (run step (boot ram) (main turns ++ (sweep.take i).flatten)).offset ≤ Trace.bufferSize - 1 :=
      run_offset_le (boot_offset ram) _
    rw [rises_board hoffset, hplace]
    exact (burst_spec i k (rest_low ram hk') p).2

end IoProcessor.Apps.PlatformSmokeTest
