import Mathlib.Logic.Relation
import IoProcessor.Library.Copies

/-! The instructions of RV32I that move words in a loop, with the local labels
of the assembler. A misaligned access is a trap, at which the run ends. -/
namespace IoProcessor.Library.Rv32
open Memory

abbrev Reg := Fin 32

def zero : Reg := 0
def t0 : Reg := 5
def a0 : Reg := 10
def a1 : Reg := 11
def a2 : Reg := 12

/-- `2f` and `1b`: the next and the last label of that number. -/
inductive Target where
  | f (label : Nat)
  | b (label : Nat)
  deriving DecidableEq, Repr

inductive Instr where
  | label (n : Nat)
  | la (rd : Reg) (symbol : Word)
  | lw (rd : Reg) (offset : Word) (rs : Reg)
  | sw (rt : Reg) (offset : Word) (rs : Reg)
  | addi (rd rs : Reg) (imm : Word)
  | bgeu (rs rt : Reg) (target : Target)
  | j (target : Target)
  deriving DecidableEq, Repr

/-- The index of the instruction that is next, the registers and the memory. -/
structure Cpu where
  pc : Nat
  regs : Reg → Word
  ram : Memory

def Cpu.get (s : Cpu) (r : Reg) : Word := if r = zero then 0 else s.regs r

def Cpu.set (s : Cpu) (r : Reg) (v : Word) : Cpu := { s with pc := s.pc + 1, regs := Function.update s.regs r v }

/-- The first label of that number from an index on. -/
def firstLabel (n : Nat) : Nat → List Instr → Option Nat
  | _, [] => none
  | k, i :: rest => if i = .label n then some k else firstLabel n (k+1) rest

/-- The last label of that number in a program that begins at an index. -/
def lastLabel (n : Nat) : Nat → List Instr → Option Nat
  | _, [] => none
  | k, i :: rest => (lastLabel n (k+1) rest).or (if i = .label n then some k else none)

def resolve (code : List Instr) (pc : Nat) : Target → Option Nat
  | .f n => firstLabel n pc (code.drop pc)
  | .b n => lastLabel n 0 (code.take pc)

def execute (code : List Instr) (s : Cpu) : Instr → Option Cpu
  | .label _ => some { s with pc := s.pc + 1 }
  | .la rd symbol => some (s.set rd symbol)
  | .lw rd offset rs =>
    let a := s.get rs + offset
    if a.toNat % 4 = 0 then some (s.set rd (s.ram.load32 a)) else none
  | .sw rt offset rs =>
    let a := s.get rs + offset
    if a.toNat % 4 = 0 then some { s with pc := s.pc + 1, ram := s.ram.store32 a (s.get rt) } else none
  | .addi rd rs imm => some (s.set rd (s.get rs + imm))
  | .bgeu rs rt target =>
    if s.get rs ≥ s.get rt then (resolve code s.pc target).map fun k => { s with pc := k }
    else some { s with pc := s.pc + 1 }
  | .j target => (resolve code s.pc target).map fun k => { s with pc := k }

def step (code : List Instr) (s : Cpu) : Option Cpu := code[s.pc]?.bind (execute code s)

/-- Some steps lead from one state to another. -/
abbrev Reaches (code : List Instr) : Cpu → Cpu → Prop := Relation.ReflTransGen fun s s' => step code s = some s'

theorem reaches_step {code : List Instr} {s u t : Cpu} {i : Instr} (hfetch : code[s.pc]? = some i)
    (hstep : execute code s i = some u) (h : Reaches code u t) : Reaches code s t := by
  refine .head ?_ h
  rw [step, hfetch]
  exact hstep

/-- A fragment stands in a program from an index on. -/
def Holds (code : List Instr) (p : Nat) (fragment : List Instr) : Prop :=
  ∀ k < fragment.length, code[p+k]? = fragment[k]?

theorem Holds.fetch {code fragment : List Instr} {p : Nat} {i : Instr} (h : Holds code p fragment) (k : Nat) {s : Cpu}
    (hpc : s.pc = p + k) (hi : fragment[k]? = some i) : code[s.pc]? = some i := by
  rw [hpc, h k (List.getElem?_eq_some_iff.mp hi).1, hi]

theorem holds_between (before fragment after : List Instr) :
    Holds (before ++ fragment ++ after) before.length fragment := by
  intro k hk
  rw [List.append_assoc, List.getElem?_append_right (Nat.le_add_right ..), Nat.add_sub_cancel_left,
    List.getElem?_append_left hk]

section Registers
variable (s : Cpu) {r : Reg} (v : Word)

theorem Cpu.get_set_self (h : r ≠ zero) : (s.set r v).get r = v := by
  rw [get, if_neg h]
  exact Function.update_self ..

@[simp] theorem Cpu.set_pc : (s.set r v).pc = s.pc + 1 := rfl
@[simp] theorem Cpu.set_ram : (s.set r v).ram = s.ram := rfl
@[simp] theorem Cpu.get_zero : s.get zero = 0 := if_pos rfl

end Registers

section Instructions
variable {code : List Instr} {s : Cpu} {a v : Word}

theorem execute_lw (rd : Reg) {offset : Word} {rs : Reg} (ha : s.get rs + offset = a) (haligned : a.toNat % 4 = 0) :
    execute code s (.lw rd offset rs) = some (s.set rd (s.ram.load32 a)) := by
  simp only [execute, ha, if_pos haligned]

theorem execute_sw {rt rs : Reg} {offset : Word} (ha : s.get rs + offset = a) (hv : s.get rt = v)
    (haligned : a.toNat % 4 = 0) :
    execute code s (.sw rt offset rs) = some { s with pc := s.pc + 1, ram := s.ram.store32 a v } := by
  simp only [execute, ha, hv, if_pos haligned]

theorem execute_addi (rd : Reg) {rs : Reg} {imm : Word} (hv : s.get rs + imm = v) :
    execute code s (.addi rd rs imm) = some (s.set rd v) := by
  simp only [execute, hv]

theorem execute_j {target : Target} {k : Nat} (h : resolve code s.pc target = some k) :
    execute code s (.j target) = some { s with pc := k } := by
  simp only [execute, h, Option.map_some]

theorem execute_bgeu_taken {rs rt : Reg} {target : Target} {k : Nat} (hge : s.get rs ≥ s.get rt)
    (h : resolve code s.pc target = some k) : execute code s (.bgeu rs rt target) = some { s with pc := k } := by
  simp only [execute, if_pos hge, h, Option.map_some]

end Instructions

/-- A loop whose rounds advance an invariant. -/
theorem reaches_rounds {code : List Instr} {Inv : Nat → Cpu → Prop} {n : Nat}
    (round : ∀ i < n, ∀ s, Inv i s → ∃ s', Reaches code s s' ∧ Inv (i+1) s') {s : Cpu} (h : Inv 0 s) :
    ∃ s', Reaches code s s' ∧ Inv n s' := by
  induction n with
  | zero => exact ⟨s, .refl, h⟩
  | succ n ih =>
    obtain ⟨s', hs', hn⟩ := ih fun i hi => round i (by omega)
    obtain ⟨s'', hs'', hlast⟩ := round n (by omega) s' hn
    exact ⟨s'', hs'.trans hs'', hlast⟩

/-- Instructions without a branch, one after the other. -/
def straight : List Instr → Cpu → Option Cpu
  | [], s => some s
  | i :: rest, s => (execute [] s i).bind (straight rest)

theorem straight_append (before after : List Instr) (s : Cpu) :
    straight (before ++ after) s = (straight before s).bind (straight after) := by
  induction before generalizing s with
  | nil => rfl
  | cons i before ih =>
    rw [List.cons_append, straight, straight, Option.bind_assoc]
    congr 1
    funext u
    exact ih u

section Frames
variable {rs : Reg} {rows : List (Reg × Word)}

/-- Registers stored to a frame. -/
theorem straight_stores (s : Cpu) (haligned : ∀ row ∈ rows, (s.get rs + row.2).toNat % 4 = 0) :
    straight (rows.map fun (r, offset) => .sw r offset rs) s = some { s with
      pc := s.pc + rows.length
      ram := s.ram.copyAll (s.get rs) (rows.map fun (r, offset) => (offset, littleEndian 4 (s.get r))) } := by
  induction rows generalizing s with
  | nil => rfl
  | cons row rows ih =>
    obtain ⟨r, offset⟩ := row
    have hfirst : execute [] s (.sw r offset rs) =
        some { s with pc := s.pc + 1, ram := s.ram.store32 (s.get rs + offset) (s.get r) } :=
      execute_sw rfl rfl (haligned (r, offset) (by simp))
    rw [List.map_cons, straight, hfirst, Option.bind_some, ih]
    · simp only [List.length_cons, Nat.add_assoc, Nat.add_comm 1]
      rfl
    · intro row hrow
      exact haligned row (List.mem_cons_of_mem _ hrow)

/-- Registers loaded from a frame that holds given values of them. -/
theorem straight_loads (s : Cpu) {value : Reg → Word} (hbase : ∀ row ∈ rows, row.1 ≠ rs)
    (haligned : ∀ row ∈ rows, (s.get rs + row.2).toNat % 4 = 0)
    (hvalue : ∀ row ∈ rows, s.ram.load32 (s.get rs + row.2) = value row.1) :
    ∃ t, straight (rows.map fun (r, offset) => .lw r offset rs) s = some t ∧ t.ram = s.ram ∧
      (∀ r ∈ rows.map Prod.fst, r ≠ zero → t.get r = value r) ∧ ∀ r ∉ rows.map Prod.fst, t.get r = s.get r := by
  induction rows generalizing s with
  | nil => exact ⟨s, rfl, rfl, fun r hr => absurd hr List.not_mem_nil, fun r _ => rfl⟩
  | cons row rows ih =>
    obtain ⟨r, offset⟩ := row
    have hne : r ≠ rs := hbase (r, offset) (by simp)
    have hloaded : s.ram.load32 (s.get rs + offset) = value r := hvalue (r, offset) (by simp)
    have hfirst : execute [] s (.lw r offset rs) = some (s.set r (s.ram.load32 (s.get rs + offset))) :=
      execute_lw r rfl (haligned (r, offset) (by simp))
    have hkeeps : (s.set r (value r)).get rs = s.get rs := by
      simp only [Cpu.get, Cpu.set, Function.update_of_ne hne.symm]
    obtain ⟨t, hrun, hram, hin, hout⟩ := ih (s.set r (value r)) (fun row hrow => hbase row (List.mem_cons_of_mem _ hrow))
      (fun row hrow => by rw [hkeeps]; exact haligned row (List.mem_cons_of_mem _ hrow))
      (fun row hrow => by rw [hkeeps]; exact hvalue row (List.mem_cons_of_mem _ hrow))
    refine ⟨t, ?_, hram, fun q hq hz => ?_, fun q hq => ?_⟩
    · rw [List.map_cons, straight, hfirst, Option.bind_some, hloaded]
      exact hrun
    · by_cases hlater : q ∈ rows.map Prod.fst
      · exact hin q hlater hz
      · obtain rfl : q = r := (List.mem_cons.mp hq).resolve_right hlater
        rw [hout q hlater, Cpu.get_set_self s _ hz]
    · have hqr : q ≠ r := List.ne_of_not_mem_cons hq
      rw [hout q (List.not_mem_of_not_mem_cons hq)]
      simp only [Cpu.get, Cpu.set, Function.update_of_ne hqr]

end Frames
end IoProcessor.Library.Rv32
