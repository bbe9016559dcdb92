import IoProcessor.Library.FilledWords
import IoProcessor.Library.Rv32

/-! The start-up code of startup.S, from DRAM to the run-time places of the
sections. Its loops move whole words, while a section may end anywhere. -/
namespace IoProcessor.Hal.Startup
open Library Rv32

/-- A region of the linker script. -/
structure Region where
  origin : Nat
  length : Nat
  fits : origin + length + 4 ≤ 2^32 := by decide

def itcm : Region := { origin := 0x00000000, length := 64 * 1024 }
def dtcm : Region := { origin := 0x00080000, length := 64 * 1024 }
def sramCode : Region := { origin := 0x07140000, length := 256 * 1024 }
def dramInit : Region := { origin := 0x48000000, length := 1024 * 1024 }

/-- The region is apart from the load images. -/
def Region.BelowDram (r : Region) : Prop := r.origin + r.length + 4 ≤ dramInit.origin

instance (r : Region) : Decidable r.BelowDram := inferInstanceAs (Decidable (_ ≤ _))

/-- The run-time place of a section. -/
structure Place (r : Region) where
  start : Word
  stop : Word
  aligned : start.toNat % 4 = 0
  ordered : start.toNat ≤ stop.toNat
  inside : r.origin ≤ start.toNat ∧ stop.toNat ≤ r.origin + r.length

def Place.size {r : Region} (p : Place r) : Nat := p.stop.toNat - p.start.toNat

/-- A section with a load image. -/
structure Loaded (r : Region) extends Place r where
  load : Word
  load_aligned : load.toNat % 4 = 0
  load_inside : dramInit.origin ≤ load.toNat ∧
    load.toNat + toPlace.size ≤ dramInit.origin + dramInit.length

/-- The symbols of the linker script. -/
structure Layout where
  vectors : Loaded itcm
  text : Loaded sramCode
  data : Loaded dtcm
  bss : Place dtcm
  data_before_bss : data.stop.toNat ≤ bss.start.toNat

/-- Sizes that are no multiples of four, and `.bss` right behind `.data`. -/
example : Layout where
  vectors := ⟨⟨0x0, 0x81, by decide, by decide, by decide⟩, 0x48000000, by decide, by decide⟩
  text := ⟨⟨0x07140000, 0x07140ABE, by decide, by decide, by decide⟩, 0x48000084, by decide, by decide⟩
  data := ⟨⟨0x00080000, 0x00080003, by decide, by decide, by decide⟩, 0x48000B44, by decide, by decide⟩
  bss := ⟨0x00080004, 0x00080009, by decide, by decide, by decide⟩
  data_before_bss := by decide

/-- One of the relocation loops. -/
def relocate {r : Region} (s : Loaded r) (loop next : Nat) : List Instr :=
  [.la a0 s.start,
   .la a1 s.stop,
   .la a2 s.load,
   .label loop,
   .bgeu a0 a1 (.f next),
   .lw t0 0 a2,
   .sw t0 0 a0,
   .addi a0 a0 4,
   .addi a2 a2 4,
   .j (.b loop),
   .label next]

def clear {r : Region} (s : Place r) (loop next : Nat) : List Instr :=
  [.la a0 s.start,
   .la a1 s.stop,
   .label loop,
   .bgeu a0 a1 (.f next),
   .sw zero 0 a0,
   .addi a0 a0 4,
   .j (.b loop),
   .label next]

/-- `_start`, where it relocates the sections. -/
def start (l : Layout) : List Instr :=
  relocate l.vectors 1 2 ++ relocate l.text 3 4 ++ relocate l.data 5 6 ++ clear l.bss 7 8

/-- The words that a loop moves. -/
def Place.words {r : Region} (s : Place r) : Nat := (s.size + 3) / 4

section Places
variable {r : Region} (s : Place r)

theorem Place.words_le : 4 * s.words ≤ s.size + 3 := by
  rw [words]
  omega

theorem Place.stop_eq : s.stop.toNat = s.start.toNat + s.size := by
  have := s.ordered
  rw [size]
  omega

/-- The address of a word, and of the one behind the last. -/
theorem Place.word_toNat {i : Nat} (hi : i ≤ s.words) : (s.start + BitVec.ofNat 32 (4*i)).toNat = s.start.toNat + 4*i := by
  apply Memory.toNat_add_small
  have := s.words_le
  have := s.stop_eq
  have := s.inside
  have := r.fits
  omega

theorem Place.word_lt {i : Nat} (hi : i ≤ s.words) : s.start + BitVec.ofNat 32 (4*i) < s.stop ↔ i < s.words := by
  rw [BitVec.lt_def, s.word_toNat hi, s.stop_eq, words]
  omega

theorem Place.word_aligned {i : Nat} (hi : i ≤ s.words) : (s.start + BitVec.ofNat 32 (4*i)).toNat % 4 = 0 := by
  have := s.aligned
  rw [s.word_toNat hi]
  omega

theorem Place.room {i : Nat} (hi : i < s.words) : 4 * (i+1) ≤ 2^32 := by
  have := s.words_le
  have := s.inside
  have := s.stop_eq
  have := r.fits
  omega

end Places

section Images
variable {r : Region} (s : Loaded r)

theorem Loaded.load_toNat {k : Nat} (hk : k < s.size + 4) : (s.load + BitVec.ofNat 32 k).toNat = s.load.toNat + k := by
  apply Memory.toNat_add_small
  have := s.load_inside
  have := dramInit.fits
  omega

/-- The load image is away from what any loop stores. -/
theorem Loaded.load_apart {q : Region} (other : Place q) (hq : q.BelowDram) {k : Nat} (hk : k < s.size + 4) :
    4 * other.words ≤ (s.load + BitVec.ofNat 32 k - other.start).toNat := by
  have := other.words_le
  have := other.stop_eq
  have := other.inside
  have := s.load_inside
  have : q.origin + q.length + 4 ≤ dramInit.origin := hq
  have hload := s.load_toNat hk
  rw [BitVec.toNat_sub, hload]
  omega

end Images

section Relocation
variable {r : Region} (s : Loaded r) (loop next : Nat) {code : List Instr} {p : Nat}

/-- The words of the load image. -/
def Loaded.image (m : Memory) (i : Nat) : Word := m.load32 (s.load + BitVec.ofNat 32 (4*i))

/-- A relocation loop behind `i` words. -/
structure Moving (p : Nat) (m : Memory) (i : Nat) (cpu : Cpu) : Prop where
  pc : cpu.pc = p + 3
  dst : cpu.get a0 = s.start + BitVec.ofNat 32 (4*i)
  stop : cpu.get a1 = s.stop
  src : cpu.get a2 = s.load + BitVec.ofNat 32 (4*i)
  ram : cpu.ram = m.filled s.start (s.image m) i

variable {s loop next} (hcode : Holds code p (relocate s loop next))
  (hback : resolve code (p+9) (.b loop) = some (p+3)) (hexit : resolve code (p+4) (.f next) = some (p+10))

theorem next_word (a : Word) (i : Nat) : a + BitVec.ofNat 32 (4*i) + 4 = a + BitVec.ofNat 32 (4*(i+1)) := by
  rw [BitVec.add_assoc, Nat.mul_succ, BitVec.ofNat_add]
  rfl

include hcode hback in
/-- One word is loaded and stored, and both addresses move on. -/
theorem Moving.round (hr : r.BelowDram) {m : Memory} {i : Nat} (hi : i < s.words)
    {cpu : Cpu} (h : Moving s p m i cpu) : ∃ cpu', Reaches code cpu cpu' ∧ Moving s p m (i+1) cpu' := by
  have hsize : 4 * i + 4 < s.size + 4 := by
    have := s.words_le
    rw [Place.words] at hi
    omega
  have hword : cpu.ram.load32 (s.load + BitVec.ofNat 32 (4*i)) = s.image m i := by
    rw [h.ram]
    apply Memory.load32_filled
    intro k hk
    have hlow := s.load_apart s.toPlace hr (k := 4*i + k) (by omega)
    have := s.words_le
    rw [BitVec.add_assoc, ← BitVec.ofNat_add]
    omega
  have hdst := s.word_aligned hi.le
  have hsrc : (s.load + BitVec.ofNat 32 (4*i)).toNat % 4 = 0 := by
    have := s.load_aligned
    rw [s.load_toNat (by omega)]
    omega
  have hmore : ¬ cpu.get a0 ≥ cpu.get a1 := by
    rw [h.dst, h.stop, ge_iff_le, BitVec.not_le, s.word_lt hi.le]
    exact hi
  let loaded : Cpu := { cpu with pc := p + 5 }.set t0 (s.image m i)
  let stored : Cpu := { loaded with
    pc := p + 7
    ram := cpu.ram.store32 (s.start + BitVec.ofNat 32 (4*i)) (s.image m i) }
  let moved : Cpu := (stored.set a0 (s.start + BitVec.ofNat 32 (4*(i+1)))).set a2 (s.load + BitVec.ofNat 32 (4*(i+1)))
  have ha0 : stored.get a0 = s.start + BitVec.ofNat 32 (4*i) := h.dst
  have ha2 : (stored.set a0 (s.start + BitVec.ofNat 32 (4*(i+1)))).get a2 = s.load + BitVec.ofNat 32 (4*i) := h.src
  refine ⟨{ moved with pc := p + 3 }, ?_, rfl, rfl, h.stop, rfl, ?_⟩
  · refine reaches_step (u := { cpu with pc := p + 4 }) (hcode.fetch 3 h.pc rfl) ?_ ?_
    · simp [execute, h.pc]
    refine reaches_step (u := { cpu with pc := p + 5 }) (hcode.fetch 4 rfl rfl) ?_ ?_
    · exact if_neg hmore
    refine reaches_step (u := loaded) (hcode.fetch 5 rfl rfl) ?_ ?_
    · have hlw : execute code { cpu with pc := p + 5 } (.lw t0 0 a2) =
          some ({ cpu with pc := p + 5 }.set t0 (cpu.ram.load32 (s.load + BitVec.ofNat 32 (4*i)))) :=
        execute_lw t0 ((BitVec.add_zero _).trans h.src) hsrc
      rw [hlw, hword]
    refine reaches_step (u := stored) (hcode.fetch 6 rfl rfl) ?_ ?_
    · exact execute_sw ((BitVec.add_zero _).trans h.dst) (Cpu.get_set_self _ _ (by decide)) hdst
    refine reaches_step (u := stored.set a0 (s.start + BitVec.ofNat 32 (4*(i+1)))) (hcode.fetch 7 rfl rfl) ?_ ?_
    · exact execute_addi a0 (by rw [ha0, next_word])
    refine reaches_step (u := moved) (hcode.fetch 8 rfl rfl) ?_ ?_
    · exact execute_addi a2 (by rw [ha2, next_word])
    refine reaches_step (hcode.fetch 9 rfl rfl) ?_ .refl
    · exact execute_j hback
  · have hsucc : (m.filled s.start (s.image m) i).store32 (s.start + BitVec.ofNat 32 (4*i)) (s.image m i) =
        m.filled s.start (s.image m) (i+1) := Memory.filled_succ (s.room hi)
    rw [← h.ram] at hsucc
    exact hsucc

include hcode hback hexit in
/-- The whole loop, from the loads of its addresses to the label behind it. -/
theorem relocate_runs (hr : r.BelowDram) {cpu : Cpu} (hpc : cpu.pc = p) :
    ∃ done, Reaches code cpu done ∧ done.pc = p + 11 ∧
      done.ram = cpu.ram.filled s.start (s.image cpu.ram) s.words := by
  let entered : Cpu := ((cpu.set a0 s.start).set a1 s.stop).set a2 s.load
  have hpc' : entered.pc = p + 3 := by
    show cpu.pc + 1 + 1 + 1 = p + 3
    omega
  have hstart : Reaches code cpu entered := by
    refine reaches_step (hcode.fetch 0 (by simpa using hpc) rfl) rfl ?_
    refine reaches_step (hcode.fetch 1 (by simp [hpc]) rfl) rfl ?_
    exact reaches_step (hcode.fetch 2 (by simp [hpc]) rfl) rfl .refl
  have hfirst : Moving s p cpu.ram 0 entered := by
    refine ⟨hpc', ?_, rfl, ?_, Memory.filled_zero.symm⟩
    · exact (BitVec.add_zero _).symm
    · exact (BitVec.add_zero _).symm
  obtain ⟨last, hloop, h⟩ := reaches_rounds (fun i hi c hc => hc.round hcode hback hr hi) hfirst
  have hend : last.get a0 ≥ last.get a1 := by
    rw [h.dst, h.stop, ge_iff_le, ← BitVec.not_lt, s.word_lt le_rfl]
    exact lt_irrefl _
  refine ⟨{ last with pc := p + 11 }, hstart.trans (hloop.trans ?_), rfl, h.ram⟩
  refine reaches_step (u := { last with pc := p + 4 }) (hcode.fetch 3 h.pc rfl) ?_ ?_
  · simp [execute, h.pc]
  refine reaches_step (hcode.fetch 4 rfl rfl) (execute_bgeu_taken hend hexit) ?_
  exact reaches_step (hcode.fetch 10 rfl rfl) rfl .refl

end Relocation

section Clearing
variable {r : Region} (s : Place r) {loop next : Nat} {code : List Instr} {p : Nat}

/-- The loop that clears a section behind `i` words. -/
structure Clearing (p : Nat) (m : Memory) (i : Nat) (cpu : Cpu) : Prop where
  pc : cpu.pc = p + 2
  dst : cpu.get a0 = s.start + BitVec.ofNat 32 (4*i)
  stop : cpu.get a1 = s.stop
  ram : cpu.ram = m.filled s.start (fun _ => 0) i

variable {s} (hcode : Holds code p (clear s loop next)) (hback : resolve code (p+6) (.b loop) = some (p+2))
  (hexit : resolve code (p+3) (.f next) = some (p+7))

include hcode hback in
theorem Clearing.round {m : Memory} {i : Nat} (hi : i < s.words) {cpu : Cpu} (h : Clearing s p m i cpu) :
    ∃ cpu', Reaches code cpu cpu' ∧ Clearing s p m (i+1) cpu' := by
  have hmore : ¬ cpu.get a0 ≥ cpu.get a1 := by
    rw [h.dst, h.stop, ge_iff_le, BitVec.not_le, s.word_lt hi.le]
    exact hi
  let stored : Cpu := { cpu with
    pc := p + 5
    ram := cpu.ram.store32 (s.start + BitVec.ofNat 32 (4*i)) 0 }
  let moved : Cpu := stored.set a0 (s.start + BitVec.ofNat 32 (4*(i+1)))
  have ha0 : stored.get a0 = s.start + BitVec.ofNat 32 (4*i) := h.dst
  refine ⟨{ moved with pc := p + 2 }, ?_, rfl, rfl, h.stop, ?_⟩
  · refine reaches_step (u := { cpu with pc := p + 3 }) (hcode.fetch 2 h.pc rfl) ?_ ?_
    · simp [execute, h.pc]
    refine reaches_step (u := { cpu with pc := p + 4 }) (hcode.fetch 3 rfl rfl) ?_ ?_
    · exact if_neg hmore
    refine reaches_step (u := stored) (hcode.fetch 4 rfl rfl) ?_ ?_
    · exact execute_sw ((BitVec.add_zero _).trans h.dst) (Cpu.get_zero _) (s.word_aligned hi.le)
    refine reaches_step (u := moved) (hcode.fetch 5 rfl rfl) ?_ ?_
    · exact execute_addi a0 (by rw [ha0, next_word])
    refine reaches_step (hcode.fetch 6 rfl rfl) ?_ .refl
    · exact execute_j hback
  · have hsucc : (m.filled s.start (fun _ => 0) i).store32 (s.start + BitVec.ofNat 32 (4*i)) 0 =
        m.filled s.start (fun _ => 0) (i+1) := Memory.filled_succ (s.room hi)
    rw [← h.ram] at hsucc
    exact hsucc

include hcode hback hexit in
theorem clear_runs {cpu : Cpu} (hpc : cpu.pc = p) :
    ∃ done, Reaches code cpu done ∧ done.pc = p + 8 ∧ done.ram = cpu.ram.filled s.start (fun _ => 0) s.words := by
  let entered : Cpu := (cpu.set a0 s.start).set a1 s.stop
  have hpc' : entered.pc = p + 2 := by
    show cpu.pc + 1 + 1 = p + 2
    omega
  have hstart : Reaches code cpu entered := by
    refine reaches_step (hcode.fetch 0 (by simpa using hpc) rfl) rfl ?_
    exact reaches_step (hcode.fetch 1 (by simp [hpc]) rfl) rfl .refl
  have hfirst : Clearing s p cpu.ram 0 entered :=
    ⟨hpc', (BitVec.add_zero _).symm, rfl, Memory.filled_zero.symm⟩
  obtain ⟨last, hloop, h⟩ := reaches_rounds (fun i hi c hc => hc.round hcode hback hi) hfirst
  have hend : last.get a0 ≥ last.get a1 := by
    rw [h.dst, h.stop, ge_iff_le, ← BitVec.not_lt, s.word_lt le_rfl]
    exact lt_irrefl _
  refine ⟨{ last with pc := p + 8 }, hstart.trans (hloop.trans ?_), rfl, h.ram⟩
  refine reaches_step (u := { last with pc := p + 3 }) (hcode.fetch 2 h.pc rfl) ?_ ?_
  · simp [execute, h.pc]
  refine reaches_step (hcode.fetch 3 rfl rfl) (execute_bgeu_taken hend hexit) ?_
  exact reaches_step (hcode.fetch 7 rfl rfl) rfl .refl

end Clearing

/-- The bytes of a section. -/
def Place.Holds {r : Region} (s : Place r) (x : Word) : Prop := s.start ≤ x ∧ x < s.stop

/-- Up to three bytes behind a section, to the end of its last word. -/
def Place.Tail {r : Region} (s : Place r) (x : Word) : Prop := s.stop ≤ x ∧ x.toNat < s.stop.toNat + 3

section Filled
variable {r : Region} (s : Place r) {m : Memory} {words : Nat → Word} {x : Word}

theorem Place.filled_outside (hx : ¬ s.Holds x) (htail : ¬ s.Tail x) : m.filled s.start words s.words x = m x := by
  apply Memory.filled_outside
  have := s.words_le
  have := s.stop_eq
  have := s.inside
  have := r.fits
  have := s.start.isLt
  simp only [Holds, Tail, BitVec.le_def, BitVec.lt_def, not_and_or, Nat.not_le, Nat.not_lt] at hx htail
  rw [BitVec.toNat_sub]
  have := x.isLt
  omega

/-- A section that is filled leaves one behind it alone, and one that begins
where it ends may begin with its tail. -/
theorem Place.filled_apart {q : Region} (other : Place q)
    (h : s.stop.toNat ≤ other.start.toNat ∨ other.stop.toNat ≤ s.start.toNat) (hx : other.Holds x) :
    m.filled s.start words s.words x = m x := by
  have := s.words_le
  have := s.stop_eq
  have := s.inside
  have := r.fits
  have := s.start.isLt
  have := s.aligned
  have := other.aligned
  obtain ⟨hlow, hhigh⟩ := hx
  rw [BitVec.le_def] at hlow
  rw [BitVec.lt_def] at hhigh
  apply Memory.filled_outside
  rw [BitVec.toNat_sub]
  have := x.isLt
  rw [Place.words]
  omega

theorem Place.filled_image {image : Memory} {load : Word} {k : Nat} (hk : k < s.size) :
    m.filled s.start (fun i => image.load32 (load + BitVec.ofNat 32 (4*i))) s.words (s.start + BitVec.ofNat 32 k) =
      image (load + BitVec.ofNat 32 k) := by
  have := s.words_le
  have := s.stop_eq
  have := s.inside
  have := r.fits
  refine Memory.filled_copy ?_ (by omega)
  rw [words]
  omega

theorem Place.holds_offset {k : Nat} (hk : k < s.size) : s.Holds (s.start + BitVec.ofNat 32 k) := by
  have := s.stop_eq
  have hx : (s.start + BitVec.ofNat 32 k).toNat = s.start.toNat + k := by
    apply Memory.toNat_add_small
    have := s.inside
    have := r.fits
    omega
  refine ⟨?_, ?_⟩
  · rw [BitVec.le_def, hx]
    omega
  · rw [BitVec.lt_def, hx]
    omega

end Filled

/-- The sections are in place, and nothing else has changed but for the ends of
the last words. -/
structure Relocated (l : Layout) (before after : Memory) : Prop where
  vectors : ∀ k < l.vectors.size, after (l.vectors.start + BitVec.ofNat 32 k) = before (l.vectors.load + BitVec.ofNat 32 k)
  text : ∀ k < l.text.size, after (l.text.start + BitVec.ofNat 32 k) = before (l.text.load + BitVec.ofNat 32 k)
  data : ∀ k < l.data.size, after (l.data.start + BitVec.ofNat 32 k) = before (l.data.load + BitVec.ofNat 32 k)
  bss : ∀ k < l.bss.size, after (l.bss.start + BitVec.ofNat 32 k) = 0
  frame : ∀ x, after x ≠ before x →
    (l.vectors.Holds x ∨ l.vectors.Tail x) ∨ (l.text.Holds x ∨ l.text.Tail x) ∨ (l.data.Holds x ∨ l.data.Tail x) ∨
      (l.bss.Holds x ∨ l.bss.Tail x)

/-- What a relocation loop leaves in memory. -/
def Loaded.placed {r : Region} (s : Loaded r) (m : Memory) : Memory := m.filled s.start (s.image m) s.words

def Place.cleared {r : Region} (s : Place r) (m : Memory) : Memory := m.filled s.start (fun _ => 0) s.words

/-- The memory behind the four loops. -/
def Layout.final (l : Layout) (m : Memory) : Memory :=
  l.bss.cleared (l.data.placed (l.text.placed (l.vectors.placed m)))

theorem start_runs (l : Layout) (regs : Reg → Word) (ram : Memory) :
    ∃ done, Reaches (start l) ⟨0, regs, ram⟩ done ∧ done.pc = (start l).length ∧ done.ram = l.final ram := by
  have hvectors : Holds (start l) 0 (relocate l.vectors 1 2) := holds_between [] _ _
  have htext : Holds (start l) 11 (relocate l.text 3 4) := holds_between (relocate l.vectors 1 2) _ _
  have hdata : Holds (start l) 22 (relocate l.data 5 6) :=
    holds_between (relocate l.vectors 1 2 ++ relocate l.text 3 4) _ _
  have hbss : Holds (start l) 33 (clear l.bss 7 8) :=
    holds_between (relocate l.vectors 1 2 ++ relocate l.text 3 4 ++ relocate l.data 5 6) _ []
  obtain ⟨c1, h1, hpc1, hram1⟩ :=
    relocate_runs hvectors rfl rfl (by decide : itcm.BelowDram) (show (⟨0, regs, ram⟩ : Cpu).pc = 0 from rfl)
  obtain ⟨c2, h2, hpc2, hram2⟩ := relocate_runs htext rfl rfl (by decide : sramCode.BelowDram) hpc1
  obtain ⟨c3, h3, hpc3, hram3⟩ := relocate_runs hdata rfl rfl (by decide : dtcm.BelowDram) hpc2
  obtain ⟨c4, h4, hpc4, hram4⟩ := clear_runs hbss rfl rfl hpc3
  refine ⟨c4, h1.trans (h2.trans (h3.trans h4)), hpc4, ?_⟩
  rw [hram4, hram3, hram2, hram1]
  rfl

/-- Two sections of which one ends before the other begins. -/
def Apart {q r : Region} (s : Place q) (s' : Place r) : Prop :=
  s.stop.toNat ≤ s'.start.toNat ∨ s'.stop.toNat ≤ s.start.toNat

theorem apart_of_regions {q r : Region} (s : Place q) (s' : Place r)
    (h : q.origin + q.length ≤ r.origin ∨ r.origin + r.length ≤ q.origin) : Apart s s' := by
  have := s.inside
  have := s'.inside
  unfold Apart
  omega

section Steps
variable {q r : Region} {m : Memory}

theorem Loaded.placed_self (s : Loaded r) {k : Nat} (hk : k < s.size) :
    s.placed m (s.start + BitVec.ofNat 32 k) = m (s.load + BitVec.ofNat 32 k) := s.filled_image hk

theorem Loaded.placed_apart (s : Loaded r) {other : Place q} (h : Apart s.toPlace other) {x : Word} (hx : other.Holds x) :
    s.placed m x = m x := s.filled_apart other h hx

theorem Place.cleared_apart (s : Place r) {other : Place q} (h : Apart s other) {x : Word} (hx : other.Holds x) :
    s.cleared m x = m x := s.filled_apart other h hx

theorem Place.cleared_self (s : Place r) {k : Nat} (hk : k < s.size) : s.cleared m (s.start + BitVec.ofNat 32 k) = 0 := by
  rw [cleared, Memory.filled_apply]
  · simp
  · rw [words]
    omega
  · have := s.words_le
    have := s.stop_eq
    have := s.inside
    have := r.fits
    omega

/-- The load image of a section that comes later is as it was. -/
theorem Loaded.placed_load (s : Loaded r) (hr : r.BelowDram) (other : Loaded q) {k : Nat} (hk : k < other.size) :
    s.placed m (other.load + BitVec.ofNat 32 k) = m (other.load + BitVec.ofNat 32 k) :=
  Memory.filled_outside (other.load_apart s.toPlace hr (by omega))

end Steps

/-- From any state the start-up code runs to its end, with every section in
place whatever its size. -/
theorem start_relocates (l : Layout) (regs : Reg → Word) (ram : Memory) :
    ∃ done, Reaches (start l) ⟨0, regs, ram⟩ done ∧ done.pc = (start l).length ∧ Relocated l ram done.ram := by
  obtain ⟨done, hreach, hpc, hram⟩ := start_runs l regs ram
  refine ⟨done, hreach, hpc, ?_⟩
  rw [hram]
  have hitcm : itcm.BelowDram := by decide
  have hcode : sramCode.BelowDram := by decide
  have hvt : Apart l.vectors.toPlace l.text.toPlace := apart_of_regions _ _ (by decide)
  have hvd : Apart l.vectors.toPlace l.data.toPlace := apart_of_regions _ _ (by decide)
  have hvb : Apart l.vectors.toPlace l.bss := apart_of_regions _ _ (by decide)
  have htd : Apart l.text.toPlace l.data.toPlace := apart_of_regions _ _ (by decide)
  have htb : Apart l.text.toPlace l.bss := apart_of_regions _ _ (by decide)
  have hdb : Apart l.data.toPlace l.bss := .inl l.data_before_bss
  refine ⟨?_, ?_, ?_, ?_, ?_⟩
  · intro k hk
    have hx := l.vectors.holds_offset hk
    rw [Layout.final, l.bss.cleared_apart hvb.symm hx, l.data.placed_apart hvd.symm hx, l.text.placed_apart hvt.symm hx,
      l.vectors.placed_self hk]
  · intro k hk
    have hx := l.text.holds_offset hk
    rw [Layout.final, l.bss.cleared_apart htb.symm hx, l.data.placed_apart htd.symm hx, l.text.placed_self hk,
      l.vectors.placed_load hitcm l.text hk]
  · intro k hk
    have hx := l.data.holds_offset hk
    rw [Layout.final, l.bss.cleared_apart hdb.symm hx, l.data.placed_self hk, l.text.placed_load hcode l.data hk,
      l.vectors.placed_load hitcm l.data hk]
  · intro k hk
    exact l.bss.cleared_self hk
  · intro x hx
    by_contra hout
    simp only [not_or] at hout
    obtain ⟨⟨hv, hvt⟩, ⟨ht, htt⟩, ⟨hd, hdt⟩, hb, hbt⟩ := hout
    refine hx ?_
    rw [Layout.final, Place.cleared, l.bss.filled_outside hb hbt, Loaded.placed, l.data.filled_outside hd hdt,
      Loaded.placed, l.text.filled_outside ht htt, Loaded.placed, l.vectors.filled_outside hv hvt]

end IoProcessor.Hal.Startup
