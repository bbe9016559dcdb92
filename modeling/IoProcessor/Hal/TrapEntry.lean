import IoProcessor.Library.Interrupted
import IoProcessor.Library.Rv32
import IoProcessor.Library.Struct

/-! `_trap_entry` of startup.S: the frame in which it keeps the registers that the
handler may change, and what a trap is to the code that it interrupts. -/
namespace IoProcessor.Hal.TrapEntry
open Library Memory Rv32 Interrupted

/-- The registers are numbers below 32, so their numerals need a zero there. -/
local instance registers : NeZero 32 := ⟨by decide⟩

def ra : Reg := 1
def sp : Reg := 2
def t1 : Reg := 6
def t2 : Reg := 7
def a3 : Reg := 13
def a4 : Reg := 14
def a5 : Reg := 15
def a6 : Reg := 16
def a7 : Reg := 17
def t3 : Reg := 28
def t4 : Reg := 29
def t5 : Reg := 30
def t6 : Reg := 31

/-- Up to the call of the handler. -/
def save : List Instr := [
  .addi sp sp (-64),
  .sw ra 0 sp, .sw t0 4 sp, .sw t1 8 sp, .sw t2 12 sp,
  .sw a0 16 sp, .sw a1 20 sp, .sw a2 24 sp, .sw a3 28 sp,
  .sw a4 32 sp, .sw a5 36 sp, .sw a6 40 sp, .sw a7 44 sp,
  .sw t3 48 sp, .sw t4 52 sp, .sw t5 56 sp, .sw t6 60 sp]

/-- From the return of the handler to the `mret`. -/
def restore : List Instr := [
  .lw ra 0 sp, .lw t0 4 sp, .lw t1 8 sp, .lw t2 12 sp,
  .lw a0 16 sp, .lw a1 20 sp, .lw a2 24 sp, .lw a3 28 sp,
  .lw a4 32 sp, .lw a5 36 sp, .lw a6 40 sp, .lw a7 44 sp,
  .lw t3 48 sp, .lw t4 52 sp, .lw t5 56 sp, .lw t6 60 sp,
  .addi sp sp 64]

/-- The registers that a function keeps by the calling convention: sp, gp, tp,
s0 and s1, s2 to s11. -/
def calleeSaved : List Reg := [sp, 3, 4, 8, 9, 18, 19, 20, 21, 22, 23, 24, 25, 26, 27]

/-- From one address to below another. -/
def between (low high x : Word) : Bool := decide (low.toNat ≤ x.toNat ∧ x.toNat < high.toNat)

/-- `riscv_trap_handler` as it is compiled: a function that keeps the calling
convention, uses so much of the stack and stores elsewhere only to its data. -/
structure Handler (data : Word → Bool) (depth : Nat) where
  run : Cpu → Cpu
  keeps : ∀ s, ∀ r ∈ calleeSaved, (run s).get r = s.get r
  frame : ∀ s x, data x = false → between (s.get sp - BitVec.ofNat 32 depth) (s.get sp) x = false →
    (run s).ram x = s.ram x

/-- The trap entry, with the address behind its call. -/
def trapEntry {data : Word → Bool} {depth : Nat} (h : Handler data depth) (returnAddress : Word) (s : Cpu) :
    Option Cpu :=
  (straight save s).bind fun s => straight restore (h.run (s.set ra returnAddress))

/-- Room on the stack for a trap, in one piece and apart from the data. -/
structure Room (data : Word → Bool) (depth : Nat) (pointer : Word) : Prop where
  aligned : pointer.toNat % 4 = 0
  deep : 64 + depth ≤ pointer.toNat
  apart : ∀ x, between (pointer - 64) pointer x = true → data x = false

/-- The rows of the frame. -/
def rows : List (Reg × Word) := [
  (ra, 0), (t0, 4), (t1, 8), (t2, 12), (a0, 16), (a1, 20), (a2, 24), (a3, 28),
  (a4, 32), (a5, 36), (a6, 40), (a7, 44), (t3, 48), (t4, 52), (t5, 56), (t6, 60)]

theorem save_eq : save = .addi sp sp (-64) :: rows.map fun (r, offset) => .sw r offset sp := rfl

theorem restore_eq : restore = (rows.map fun (r, offset) => .lw r offset sp) ++ [.addi sp sp 64] := rfl

/-- What the convention does not keep, the frame does. -/
theorem saved_or_kept (r : Reg) : r = zero ∨ r ∈ rows.map Prod.fst ∨ r ∈ calleeSaved := by
  revert r
  decide

theorem kept_not_saved (r : Reg) : r ∈ calleeSaved → r ∉ rows.map Prod.fst := by
  revert r
  decide

/-- The stack pointer is the base of the frame and no part of it. -/
theorem sp_not_saved : sp ∉ rows.map Prod.fst := by decide

theorem row_ne_sp {row : Reg × Word} (h : row ∈ rows) : row.1 ≠ sp := by
  intro he
  exact sp_not_saved (he ▸ List.mem_map_of_mem h)

theorem rows_offset (k : Fin 16) : (rows.get k).2 = 4 * BitVec.ofNat 32 k := by
  revert k
  decide

section
variable {data : Word → Bool} {depth : Nat} {pointer : Word} (hroom : Room data depth pointer)
include hroom

theorem Room.toNat_frame : (pointer - 64).toNat = pointer.toNat - 64 := by
  have := hroom.deep
  have := pointer.isLt
  rw [BitVec.toNat_sub, show (64 : Word).toNat = 64 from rfl]
  omega

theorem Room.toNat_row {row : Reg × Word} (h : row ∈ rows) :
    ∃ k : Fin 16, row = rows.get k ∧ (pointer - 64 + row.2).toNat = pointer.toNat - 64 + 4*k := by
  obtain ⟨k, hk⟩ := List.mem_iff_get.mp h
  refine ⟨k, hk.symm, ?_⟩
  have := hroom.deep
  have := pointer.isLt
  have hlt : k.val < 16 := k.isLt
  rw [← hk, rows_offset k, word_toNat (n := 16) (by rw [hroom.toNat_frame]; omega) hlt, hroom.toNat_frame]

theorem Room.aligned_row {row : Reg × Word} (h : row ∈ rows) : (pointer - 64 + row.2).toNat % 4 = 0 := by
  obtain ⟨k, -, hk⟩ := hroom.toNat_row h
  have := hroom.aligned
  have := hroom.deep
  omega

end

/-- The frame that `save` writes. -/
def frameBytes (s : Cpu) : List Byte := (rows.map fun row => s.get row.1).flatMap (littleEndian 4)

theorem frameBytes_length (s : Cpu) : (frameBytes s).length = 64 := by simp [frameBytes, rows]

theorem copies_eq (m : Memory) (a : Word) (s : Cpu) :
    m.copyAll a (rows.map fun (r, offset) => (offset, littleEndian 4 (s.get r))) = m.store a (frameBytes s) := by
  have hflat : (rows.map fun (r, offset) => (offset, littleEndian 4 (s.get r))).flatMap (·.2) = frameBytes s := by
    rw [frameBytes, List.flatMap_map, List.flatMap_map]
  have hadjoin : Adjoining 0 (rows.map fun (r, offset) => (offset, littleEndian 4 (s.get r))) := by
    simp only [rows, List.map_cons, List.map_nil, Adjoining, littleEndian_length, and_true]
    decide
  rw [copyAll_eq_store m a hadjoin (by rw [hflat, frameBytes_length]; omega), hflat, BitVec.add_zero]

/-- Each row of the frame holds its register. -/
theorem load32_frame (m : Memory) (a : Word) (s : Cpu) {row : Reg × Word} (h : row ∈ rows) :
    (m.store a (frameBytes s)).load32 (a + row.2) = s.get row.1 := by
  obtain ⟨k, rfl⟩ := List.mem_iff_get.mp h
  have hlt : k.val < (rows.map fun row => s.get row.1).length := k.isLt
  have hshort : 4 * (rows.map fun row => s.get row.1).length < 2^32 := by simp [rows]
  have hword := Struct.load32_store_words m a hshort hlt
  rw [rows_offset k, frameBytes, hword, List.getElem_map]
  rfl

section
variable {data : Word → Bool} {depth : Nat} (h : Handler data depth) (returnAddress : Word)

/-- Up to the handler: the frame is written below the old stack pointer. -/
theorem straight_save {s : Cpu} (hroom : Room data depth (s.get sp)) :
    ∃ t, straight save s = some t ∧ t.ram = s.ram.store (s.get sp - 64) (frameBytes s) ∧
      t.get sp = s.get sp - 64 ∧ ∀ r ≠ sp, t.get r = s.get r := by
  have hsub : s.get sp + -64 = s.get sp - 64 := (BitVec.sub_eq_add_neg _ _).symm
  have hfirst : execute [] s (.addi sp sp (-64)) = some (s.set sp (s.get sp - 64)) := execute_addi sp hsub
  have hpointer : (s.set sp (s.get sp - 64)).get sp = s.get sp - 64 := Cpu.get_set_self s _ (by decide)
  have hother (r : Reg) (hr : r ≠ sp) : (s.set sp (s.get sp - 64)).get r = s.get r := by
    simp only [Cpu.get, Cpu.set, Function.update_of_ne hr]
  have hbytes : frameBytes (s.set sp (s.get sp - 64)) = frameBytes s := by
    simp only [frameBytes, List.map_congr_left fun row hrow => hother row.1 (row_ne_sp hrow)]
  have haligned : ∀ row ∈ rows, ((s.set sp (s.get sp - 64)).get sp + row.2).toNat % 4 = 0 := by
    intro row hrow
    rw [hpointer]
    exact hroom.aligned_row hrow
  have hstores := straight_stores (s.set sp (s.get sp - 64)) haligned
  rw [hpointer, copies_eq, hbytes] at hstores
  refine ⟨{ s.set sp (s.get sp - 64) with
    pc := (s.set sp (s.get sp - 64)).pc + rows.length
    ram := s.ram.store (s.get sp - 64) (frameBytes s) }, ?_, rfl, hpointer, hother⟩
  rw [save_eq, straight, hfirst, Option.bind_some]
  exact hstores

/-- From the handler on: the registers are loaded from a frame that is intact. -/
theorem straight_restore {s t : Cpu} {pointer : Word} (hroom : Room data depth pointer) (hsp : t.get sp = pointer - 64)
    (hframe : ∀ row ∈ rows, t.ram.load32 (pointer - 64 + row.2) = s.get row.1) :
    ∃ u, straight restore t = some u ∧ u.ram = t.ram ∧ u.get sp = pointer ∧
      (∀ r ∈ rows.map Prod.fst, r ≠ zero → u.get r = s.get r) ∧
      ∀ r ≠ sp, r ∉ rows.map Prod.fst → u.get r = t.get r := by
  have haligned : ∀ row ∈ rows, (t.get sp + row.2).toNat % 4 = 0 := by
    intro row hrow
    rw [hsp]
    exact hroom.aligned_row hrow
  have hheld : ∀ row ∈ rows, t.ram.load32 (t.get sp + row.2) = s.get row.1 := by
    intro row hrow
    rw [hsp]
    exact hframe row hrow
  obtain ⟨v, hloads, hram, hloaded, hregs⟩ := straight_loads t (fun _ h => row_ne_sp h) haligned hheld
  have hpointer : v.get sp + 64 = pointer := by
    rw [hregs sp sp_not_saved, hsp, BitVec.sub_add_cancel]
  have hlast : execute [] v (.addi sp sp 64) = some (v.set sp pointer) := execute_addi sp hpointer
  have hother (r : Reg) (hr : r ≠ sp) : (v.set sp pointer).get r = v.get r := by
    simp only [Cpu.get, Cpu.set, Function.update_of_ne hr]
  refine ⟨v.set sp pointer, ?_, hram, Cpu.get_set_self v _ (by decide), fun r hr hz => ?_, fun r hr hnot => ?_⟩
  · rw [restore_eq, straight_append, hloads, Option.bind_some, straight, hlast]
    rfl
  · rw [hother r fun he => sp_not_saved (he ▸ hr)]
    exact hloaded r hr hz
  · rw [hother r hr]
    exact hregs r hnot

/-- The trap entry returns with every register as it was, and has stored only to
the data of the handler and below the stack pointer. -/
theorem trapEntry_keeps {s : Cpu} (hroom : Room data depth (s.get sp)) :
    ∃ t, trapEntry h returnAddress s = some t ∧ (∀ r, t.get r = s.get r) ∧
      ∀ x, data x = false → between (s.get sp - BitVec.ofNat 32 (64 + depth)) (s.get sp) x = false →
        t.ram x = s.ram x := by
  obtain ⟨entered, hsave, hram, hsp, hregs⟩ := straight_save hroom
  have hra : (entered.set ra returnAddress).get sp = s.get sp - 64 := by
    rw [← hsp]
    simp only [Cpu.get, Cpu.set, Function.update_of_ne (show sp ≠ ra by decide)]
  have hcalled : (h.run (entered.set ra returnAddress)).get sp = s.get sp - 64 := by
    rw [h.keeps _ sp (by decide), hra]
  have hdeep := hroom.deep
  have hpointer := (s.get sp).isLt
  have hbase := hroom.toNat_frame
  have hlow : (s.get sp - 64 - BitVec.ofNat 32 depth).toNat = (s.get sp).toNat - 64 - depth := by
    rw [BitVec.toNat_sub, hbase, BitVec.toNat_ofNat, Nat.mod_eq_of_lt (by omega : depth < 2^32)]
    omega
  have hkept (x : Word) (hx : between (s.get sp - 64) (s.get sp) x = true) :
      (h.run (entered.set ra returnAddress)).ram x = s.ram.store (s.get sp - 64) (frameBytes s) x := by
    rw [h.frame _ x (hroom.apart x hx) ?_, Cpu.set_ram, hram]
    rw [hra]
    simp only [between, decide_eq_true_eq, decide_eq_false_iff_not, hlow, hbase] at hx ⊢
    omega
  have hframe : ∀ row ∈ rows,
      (h.run (entered.set ra returnAddress)).ram.load32 (s.get sp - 64 + row.2) = s.get row.1 := by
    intro row hrow
    rw [← load32_frame s.ram (s.get sp - 64) s hrow]
    refine load32_congr fun k hk => hkept _ ?_
    obtain ⟨i, -, hi⟩ := hroom.toNat_row hrow
    have hlt : i.val < 16 := i.isLt
    simp only [between, decide_eq_true_eq, hbase, toNat_add_small (show (s.get sp - 64 + row.2).toNat + k < 2^32 by omega)]
    omega
  obtain ⟨left, hrestore, hleft, hspleft, hloaded, hregsleft⟩ := straight_restore hroom hcalled hframe
  refine ⟨left, ?_, fun r => ?_, fun x hdata hx => ?_⟩
  · rw [trapEntry, hsave, Option.bind_some, hrestore]
  · by_cases hr : r = sp
    · rw [hr, hspleft]
    · rcases saved_or_kept r with rfl | hrow | hkept
      · simp
      · by_cases hz : r = zero
        · simp [hz]
        · exact hloaded r hrow hz
      · have hnot : r ∉ rows.map Prod.fst := kept_not_saved r hkept
        rw [hregsleft r hr hnot, h.keeps _ r hkept, ← hregs r hr]
        have hne : r ≠ ra := fun he => hnot (by rw [he]; decide)
        simp only [Cpu.get, Cpu.set, Function.update_of_ne hne]
  · have hlower : (s.get sp - BitVec.ofNat 32 (64 + depth)).toNat = (s.get sp).toNat - 64 - depth := by
      rw [BitVec.toNat_sub, BitVec.toNat_ofNat, Nat.mod_eq_of_lt (by omega : 64 + depth < 2^32)]
      omega
    simp only [between, decide_eq_false_iff_not, hlower] at hx
    rw [hleft, h.frame _ x hdata ?_, Cpu.set_ram, hram]
    · refine store_outside ?_ ?_
      · rw [frameBytes_length]
        omega
      · rw [frameBytes_length]
        omega
    · simp only [between, decide_eq_false_iff_not, hra, hlow, hbase]
      omega

end

/-- The core as a program sees it. -/
structure Core where
  regs : Reg → Word
  pc : Word
  wired : regs zero = 0

theorem Core.ext_regs {a b : Core} (hregs : ∀ r, a.regs r = b.regs r) (hpc : a.pc = b.pc) : a = b := by
  obtain ⟨regs, pc, _⟩ := a
  obtain ⟨regs', pc', _⟩ := b
  obtain rfl : regs = regs' := funext hregs
  obtain rfl : pc = pc' := hpc
  rfl

/-- What traps may store to. -/
def footprint (data : Word → Bool) (depth : Nat) : Footprint Core where
  data := data
  scratch c := between (c.regs sp - BitVec.ofNat 32 (64 + depth)) (c.regs sp)
  ready c := Room data depth (c.regs sp)

/-- A trap from its entry to the `mret`, which goes back to where it was taken. -/
def takeTrap {data : Word → Bool} {depth : Nat} (h : Handler data depth) (returnAddress : Word) (s : State Core) :
    Option (State Core) :=
  let mepc := s.regs.pc
  (trapEntry h returnAddress ⟨0, s.regs.regs, s.ram⟩).map fun t => ⟨⟨t.get, mepc, Cpu.get_zero t⟩, t.ram⟩

def trap {data : Word → Bool} {depth : Nat} (h : Handler data depth) (returnAddress : Word) :
    Interruption (footprint data depth) where
  act := takeTrap h returnAddress
  returns s hready := by
    have hget (r : Reg) : (⟨0, s.regs.regs, s.ram⟩ : Cpu).get r = s.regs.regs r := by
      rw [Cpu.get]
      split
      · rename_i hz
        rw [hz, s.regs.wired]
      · rfl
    have hroom : Room data depth ((⟨0, s.regs.regs, s.ram⟩ : Cpu).get sp) := by
      rw [hget]
      exact hready
    obtain ⟨t, ht, hregs, hram⟩ := trapEntry_keeps h returnAddress hroom
    have hcore : (⟨t.get, s.regs.pc, Cpu.get_zero t⟩ : Core) = s.regs :=
      Core.ext_regs (fun r => (hregs r).trans (hget r)) rfl
    refine ⟨t.ram, ?_, fun x hdata hscratch => ?_⟩
    · rw [takeTrap, ht, Option.map_some, hcore]
    · refine hram x hdata ?_
      rw [hget]
      exact hscratch

/-- `wfi` and the jump back to it, at which the core ends up when `main` returns. -/
def infiniteLoop (wfi : Word) : Program Core where
  reads _ := []
  next c _ := ({ c with pc := if c.pc = wfi then wfi + 4 else wfi }, [])

theorem infiniteLoop_regs (data : Word → Bool) (depth : Nat) (wfi : Word) (v : Seen Core) (moments : List Moment) :
    (Seen.run (footprint data depth) (infiniteLoop wfi) v moments).state.regs.regs = v.state.regs.regs := by
  induction moments generalizing v with
  | nil => rfl
  | cons moment moments ih =>
    refine (ih _).trans ?_
    cases moment with
    | instruction => rfl
    | update values => rfl

/-- The loop is a task wherever its stack leaves room. -/
def idle (data : Word → Bool) (depth : Nat) (wfi : Word) (s : State Core) (hroom : Room data depth (s.regs.regs sp)) :
    Task (footprint data depth) where
  program := infiniteLoop wfi
  start := s
  ready moments := by
    have hregs := infiniteLoop_regs data depth wfi ⟨s, fun _ => false⟩ moments
    change Room data depth ((Seen.run (footprint data depth) (infiniteLoop wfi) ⟨s, _⟩ moments).state.regs.regs sp)
    rw [hregs]
    exact hroom
  reads_clean _ _ hx := absurd hx List.not_mem_nil

/-- Where traps are taken in a run of a task. -/
inductive Step (data : Word → Bool) (depth : Nat) where
  | instruction
  | trap (h : Handler data depth) (returnAddress : Word)

def Step.event {data : Word → Bool} {depth : Nat} : Step data depth → Event (footprint data depth)
  | .instruction => .instruction
  | .trap h returnAddress => .interruption (TrapEntry.trap h returnAddress)

/-- A task runs to the end through any traps at any places, and to its code each
of them is one update of the data of the handler: the registers, the place in
the code and all memory that it may read are those of a run without traps in
which only that data changes. -/
theorem traps_are_updates {data : Word → Bool} {depth : Nat} (t : Task (footprint data depth))
    (steps : List (Step data depth)) :
    ∃ s moments, runInterrupted t.program t.start (steps.map Step.event) = some s ∧
      moments.map Moment.isInstruction = (steps.map Step.event).map Event.isInstruction ∧
      s.regs = (t.seen moments).state.regs ∧
      ∀ x, (t.seen moments).junk x = false → s.ram x = (t.seen moments).state.ram x := by
  obtain ⟨s, moments, hrun, hkinds, hagrees⟩ := t.runs_as_seen (steps.map Step.event)
  exact ⟨s, moments, hrun, hkinds, hagrees.regs, hagrees.ram⟩

/-- A word in the SRAM, and a handler that counts in its first byte. -/
private def countAddr : Word := 0x00020000
private def countData (x : Word) : Bool := x == countAddr

private def countTraps : Handler countData 0 where
  run s := { s with ram := s.ram.store8 countAddr (s.ram countAddr + 1) }
  keeps _ _ _ := rfl
  frame s _ hx _ := s.ram.store8_ne _ (beq_eq_false_iff_ne.mp hx)

/-- The core in its last loop, with a stack from 0x00028000 down. -/
private def waiting : State Core :=
  ⟨⟨fun r => if r = sp then 0x00028000 else 0, 0x400, rfl⟩, fun _ => 0⟩

private theorem waiting_room : Room countData 0 (waiting.regs.regs sp) where
  aligned := rfl
  deep := by decide
  apart _ hx := by
    refine beq_eq_false_iff_ne.mpr ?_
    rintro rfl
    exact absurd hx (by decide)

/-- Two traps in the loop leave the core where it was. -/
theorem waits_through_traps :
    ∃ s, runInterrupted (infiniteLoop 0x400) waiting
        ([.instruction, .trap countTraps 0x120, .trap countTraps 0x120, .instruction].map Step.event) = some s ∧
      s.regs.regs = waiting.regs.regs := by
  obtain ⟨s, moments, hrun, -, hregs, -⟩ := traps_are_updates (idle countData 0 0x400 waiting waiting_room)
    [.instruction, .trap countTraps 0x120, .trap countTraps 0x120, .instruction]
  refine ⟨s, hrun, ?_⟩
  rw [hregs]
  exact infiniteLoop_regs countData 0 0x400 ⟨waiting, fun _ => false⟩ moments

end IoProcessor.Hal.TrapEntry
