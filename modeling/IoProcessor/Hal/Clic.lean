import IoProcessor.Library.History
import IoProcessor.Library.Register
import IoProcessor.Hal.MemoryMap

/-! The interrupt controller and the forwarding of GIC interrupts to it, as words
of register memory, and the table of lines that they are. A call masks the
core's interrupts and not the sources, which act between its load and its
store. -/
namespace IoProcessor.Hal.Clic
open Library Memory MemoryMap History

inductive ClicTrigger where
  | level | posEdge | negEdge
  deriving DecidableEq, Repr

def ClicTrigger.toWord : ClicTrigger → Word
  | .level => 0 | .posEdge => 1 | .negEdge => 3

def maxInterrupts : Word := 144

def intIpShift : Nat := 0
def intIeShift : Nat := 8
def intVectorBit : Word := 1#32 <<< 16
def intTrigShift : Nat := 17
def intTrigMask : Word := 3#32 <<< 17
def intModeMachine : Word := 3#32 <<< 22
def intPrioShift : Nat := 27
def intPrioMask : Word := 0x1F#32 <<< 27

def cfgOffset : Word := 0
def mintthreshOffset : Word := 8
def intBaseOffset : Word := 0x1000

def intOffset (irq : Word) : Word := intBaseOffset + irq * 4

def reg (offset : Word) : Word := clicBase + offset

def enableValue (value priority : Word) (trigger : ClicTrigger) (hardwareVectored : Bool) : Word :=
  let value := value &&& ~~~(intPrioMask ||| intTrigMask ||| intVectorBit)
  let value := value ||| intModeMachine
  let value := value ||| ((priority <<< intPrioShift) &&& intPrioMask)
  let value := value ||| ((trigger.toWord <<< intTrigShift) &&& intTrigMask)
  let value := if hardwareVectored then value ||| intVectorBit else value
  value ||| (1#32 <<< intIeShift)

/-- A line whose register is about to be stored to, and the value. -/
structure Held where
  irq : Word
  value : Word
  known : irq < maxInterrupts

structure State where
  mem : Memory
  held : Option Held

/-- The load of a call on a line, with what it makes of the value. No call begins
before the one under way has ended. -/
def load (s : State) (irq : Word) (f : Word → Word) : State :=
  if h : irq ≥ maxInterrupts then s
  else
    match s.held with
    | some _ => s
    | none => { s with held := some ⟨irq, f (s.mem.load32 (reg (intOffset irq))), BitVec.not_le.mp h⟩ }

/-- The store that ends the call under way. -/
def store (s : State) : State :=
  match s.held with
  | some h => ⟨s.mem.store32 (reg (intOffset h.irq)) h.value, none⟩
  | none => s

def enable (s : State) (irq priority : Word) (trigger : ClicTrigger) (hardwareVectored : Bool) : State :=
  load s irq (enableValue · priority trigger hardwareVectored)

def disable (s : State) (irq : Word) : State := load s irq (· &&& ~~~(1#32 <<< intIeShift))

def isPending (m : Memory) (irq : Word) : Bool :=
  decide (irq < maxInterrupts) && m.load32 (reg (intOffset irq)) &&& (1#32 <<< intIpShift) != 0

def clearPending (s : State) (irq : Word) : State := load s irq (· &&& ~~~(1#32 <<< intIpShift))

/-- The first two stores of `init`; its loop is a call for each line. -/
def initGlobal (m : Memory) : Memory := (m.store32 (reg cfgOffset) 0).store32 (reg mintthreshOffset) 0

namespace SharedGicGroup

def gintcConfigReg0 : Word := 0xC0

def reg (offset : Word) : Word := sIntcBase + offset

/-- The register that has the bit of a GIC interrupt, and the bit. -/
def configReg (gicIrq : Word) : Word := reg (gintcConfigReg0 + (gicIrq - 32) / 32 * 4)
def configBit (gicIrq : Word) : Word := 1#32 <<< ((gicIrq - 32) % 32).toNat

def enableForGicIrq (m : Memory) (gicIrq : Word) : Memory :=
  if gicIrq < 32 then m else m.modify32 (configReg gicIrq) (· ||| configBit gicIrq)

def disableForGicIrq (m : Memory) (gicIrq : Word) : Memory :=
  if gicIrq < 32 then m else m.modify32 (configReg gicIrq) (· &&& ~~~(configBit gicIrq))

def clicIrqForGicIrq (gicIrq : Word) : Word := 90 + (gicIrq - 32) / 8

end SharedGicGroup

/-- The loads of the calls, the store that ends one, and the hardware, which sets
and clears the pending bits. -/
inductive Action where
  | initGlobal
  | enable (irq priority : Word) (trigger : ClicTrigger) (hardwareVectored : Bool)
  | disable (irq : Word)
  | clearPending (irq : Word)
  | store
  | enableForGicIrq (gicIrq : Word)
  | disableForGicIrq (gicIrq : Word)
  | source (irq : Word) (pending : Bool)
  deriving DecidableEq, Repr

def initActions : List Action :=
  .initGlobal :: (List.range maxInterrupts.toNat).flatMap fun i => [.disable (BitVec.ofNat 32 i), .store]

def pendingValue (value : Word) (pending : Bool) : Word :=
  if pending then value ||| (1#32 <<< intIpShift) else value &&& ~~~(1#32 <<< intIpShift)

/-- A call whose registers no hardware writes is one step, between the others. -/
def atomically (s : State) (call : Memory → Memory) : State :=
  if s.held.isSome then s else { s with mem := call s.mem }

def step (s : State) : Action → State
  | .initGlobal => atomically s initGlobal
  | .enable irq priority trigger hardwareVectored => enable s irq priority trigger hardwareVectored
  | .disable irq => disable s irq
  | .clearPending irq => clearPending s irq
  | .store => store s
  | .enableForGicIrq gicIrq => atomically s (SharedGicGroup.enableForGicIrq · gicIrq)
  | .disableForGicIrq gicIrq => atomically s (SharedGicGroup.disableForGicIrq · gicIrq)
  | .source irq pending =>
    if irq ≥ maxInterrupts then s
    else { s with mem := s.mem.modify32 (reg (intOffset irq)) (pendingValue · pending) }

/-- The fields of a line's register. -/
structure Line where
  pending : Bool
  enabled : Bool
  vectored : Bool
  trigger : BitVec 2
  mode : BitVec 2
  priority : BitVec 5
  deriving DecidableEq, Repr

def Line.ofValue (value : Word) : Line where
  pending := value.getLsbD 0
  enabled := value.getLsbD 8
  vectored := value.getLsbD 16
  trigger := value.extractLsb' 17 2
  mode := value.extractLsb' 22 2
  priority := value.extractLsb' 27 5

/-- The controller as a table: its lines, and the GIC interrupts that are
forwarded to them. -/
@[ext] structure Controller where
  config : Word
  threshold : Word
  line : Word → Option Line
  forwarded : Word → Bool

def controller (m : Memory) : Controller where
  config := m.load32 (reg cfgOffset)
  threshold := m.load32 (reg mintthreshOffset)
  line irq := if irq < maxInterrupts then some (.ofValue (m.load32 (reg (intOffset irq)))) else none
  forwarded gicIrq :=
    decide (32 ≤ gicIrq) && (m.load32 (SharedGicGroup.configReg gicIrq)).getLsbD ((gicIrq - 32) % 32).toNat

def Controller.setLine (c : Controller) (irq : Word) (f : Line → Line) : Controller :=
  { c with line := Function.update c.line irq ((c.line irq).map f) }

theorem Controller.setLine_line (c : Controller) (irq other : Word) (f : Line → Line) :
    (c.setLine irq f).line other = if other = irq then (c.line irq).map f else c.line other :=
  Function.update_apply ..

def Controller.setForwarded (c : Controller) (gicIrq : Word) (on : Bool) : Controller :=
  { c with forwarded := Function.update c.forwarded gicIrq (decide (32 ≤ gicIrq) && on) }

/-- The table, and the line as the call under way has it. -/
structure Table where
  controller : Controller
  held : Option (Word × Line)

def table (s : State) : Table := ⟨controller s.mem, s.held.map fun h => (h.irq, .ofValue h.value)⟩

namespace Table

/-- A call takes its line as it is at the load. -/
def load (t : Table) (irq : Word) (f : Line → Line) : Table :=
  match t.held, t.controller.line irq with
  | none, some l => { t with held := some (irq, f l) }
  | _, _ => t

/-- At the store it puts back the whole line, with the pending bit it has loaded. -/
def store (t : Table) : Table :=
  match t.held with
  | some (irq, l) => ⟨t.controller.setLine irq fun _ => l, none⟩
  | none => t

def atomically (t : Table) (call : Controller → Controller) : Table :=
  if t.held.isSome then t else { t with controller := call t.controller }

def step (t : Table) : Action → Table
  | .initGlobal => t.atomically fun c => { c with config := 0, threshold := 0 }
  | .enable irq priority trigger hardwareVectored => t.load irq fun l => { l with
      enabled := true
      vectored := hardwareVectored
      trigger := trigger.toWord.setWidth 2
      mode := 3
      priority := priority.setWidth 5 }
  | .disable irq => t.load irq fun l => { l with enabled := false }
  | .clearPending irq => t.load irq fun l => { l with pending := false }
  | .store => t.store
  | .enableForGicIrq gicIrq => t.atomically (·.setForwarded gicIrq true)
  | .disableForGicIrq gicIrq => t.atomically (·.setForwarded gicIrq false)
  | .source irq pending =>
    { t with controller := t.controller.setLine irq fun l => { l with pending := pending } }

end Table

theorem getLsbD_enableValue (value priority : Word) (trigger : ClicTrigger) (hardwareVectored : Bool) {i : Nat}
    (hi : i < 32) :
    (enableValue value priority trigger hardwareVectored).getLsbD i =
      if 27 ≤ i then priority.getLsbD (i - 27)
      else if 22 ≤ i ∧ i < 24 then true
      else if 17 ≤ i ∧ i < 19 then trigger.toWord.getLsbD (i - 17)
      else if i = 16 then hardwareVectored
      else if i = 8 then true
      else value.getLsbD i := by
  unfold enableValue
  generalize trigger.toWord = w
  interval_cases i <;> cases hardwareVectored <;>
    simp [intPrioMask, intTrigMask, intVectorBit, intModeMachine, intPrioShift, intTrigShift, intIeShift]

private theorem extract_eq {n : Nat} {value : Word} {start : Nat} {v : BitVec n}
    (h : ∀ i < n, value.getLsbD (start + i) = v.getLsbD i) : value.extractLsb' start n = v := by
  apply BitVec.eq_of_getLsbD_eq
  intro i hi
  rw [BitVec.getLsbD_extractLsb', h i hi, decide_eq_true hi, Bool.true_and]

theorem Line.ofValue_enable (value priority : Word) (trigger : ClicTrigger) (hardwareVectored : Bool) :
    Line.ofValue (enableValue value priority trigger hardwareVectored) =
      { Line.ofValue value with
        enabled := true
        vectored := hardwareVectored
        trigger := trigger.toWord.setWidth 2
        mode := 3
        priority := priority.setWidth 5 } := by
  have hbit {i : Nat} (hi : i < 32) := getLsbD_enableValue value priority trigger hardwareVectored hi
  have htrigger : (enableValue value priority trigger hardwareVectored).extractLsb' 17 2 =
      trigger.toWord.setWidth 2 := by
    refine extract_eq fun i hi => ?_
    rw [hbit (by omega), if_neg (by omega), if_neg (by omega), if_pos (by omega), Nat.add_sub_cancel_left,
      BitVec.getLsbD_setWidth, decide_eq_true hi, Bool.true_and]
  have hmode : (enableValue value priority trigger hardwareVectored).extractLsb' 22 2 = 3 := by
    refine extract_eq fun i hi => ?_
    rw [hbit (by omega), if_neg (by omega), if_pos (by omega)]
    interval_cases i <;> rfl
  have hpriority : (enableValue value priority trigger hardwareVectored).extractLsb' 27 5 = priority.setWidth 5 := by
    refine extract_eq fun i hi => ?_
    rw [hbit (by omega), if_pos (by omega), Nat.add_sub_cancel_left, BitVec.getLsbD_setWidth, decide_eq_true hi,
      Bool.true_and]
  simp only [Line.ofValue, htrigger, hmode, hpriority, hbit (show 0 < 32 by omega), hbit (show 8 < 32 by omega),
    hbit (show 16 < 32 by omega)]
  rfl

/-- A value with the same bits above the lowest two bytes has the same fields
there. -/
private theorem ofValue_low {value value' : Word} {pending enabled : Bool}
    (h : ∀ i, 16 ≤ i → value'.getLsbD i = value.getLsbD i) (hpending : value'.getLsbD 0 = pending)
    (henabled : value'.getLsbD 8 = enabled) :
    Line.ofValue value' = { Line.ofValue value with pending := pending, enabled := enabled } := by
  have hextract (start n : Nat) (hs : 16 ≤ start) : value'.extractLsb' start n = value.extractLsb' start n := by
    apply BitVec.eq_of_getLsbD_eq
    intro i hi
    rw [BitVec.getLsbD_extractLsb', BitVec.getLsbD_extractLsb', h _ (by omega)]
  simp only [Line.ofValue, hextract 17 2 (by omega), hextract 22 2 (by omega), hextract 27 5 (by omega), h 16 le_rfl,
    hpending, henabled]

theorem getLsbD_clear (value : Word) (k i : Nat) :
    (value &&& ~~~(1#32 <<< k)).getLsbD i = (value.getLsbD i && decide (i ≠ k)) := by
  rcases Nat.lt_or_ge i 32 with hi | hi
  · simp only [BitVec.getLsbD_and, BitVec.getLsbD_not, BitVec.getLsbD_shiftLeft, hi, decide_true, Bool.true_and,
      BitVec.getLsbD_one]
    congr 1
    grind
  · rw [BitVec.getLsbD_of_ge _ _ hi, BitVec.getLsbD_of_ge _ _ hi, Bool.false_and]

theorem getLsbD_setBit (value : Word) {k : Nat} (hk : k < 32) (i : Nat) :
    (value ||| (1#32 <<< k)).getLsbD i = (value.getLsbD i || decide (i = k)) := by
  rcases Nat.lt_or_ge i 32 with hi | hi
  · simp only [BitVec.getLsbD_or, BitVec.getLsbD_shiftLeft, hi, decide_true, Bool.true_and, BitVec.getLsbD_one]
    congr 1
    grind
  · rw [BitVec.getLsbD_of_ge _ _ hi, BitVec.getLsbD_of_ge _ _ hi, Bool.false_or]
    symm
    exact decide_eq_false (by omega)

theorem Line.ofValue_disable (value : Word) :
    Line.ofValue (value &&& ~~~(1#32 <<< intIeShift)) = { Line.ofValue value with enabled := false } := by
  have hbit := getLsbD_clear value intIeShift
  refine ofValue_low (fun i hi => ?_) ((hbit 0).trans (Bool.and_true _)) ((hbit 8).trans (Bool.and_false _))
  rw [hbit, decide_eq_true (show i ≠ intIeShift by unfold intIeShift; omega), Bool.and_true]

theorem Line.ofValue_clearPending (value : Word) :
    Line.ofValue (value &&& ~~~(1#32 <<< intIpShift)) = { Line.ofValue value with pending := false } := by
  have hbit := getLsbD_clear value intIpShift
  refine ofValue_low (fun i hi => ?_) ((hbit 0).trans (Bool.and_false _)) ((hbit 8).trans (Bool.and_true _))
  rw [hbit, decide_eq_true (show i ≠ intIpShift by unfold intIpShift; omega), Bool.and_true]

theorem Line.ofValue_pending (value : Word) (pending : Bool) :
    Line.ofValue (pendingValue value pending) = { Line.ofValue value with pending := pending } := by
  cases pending with
  | false => exact ofValue_clearPending value
  | true =>
    have hbit := getLsbD_setBit value (show intIpShift < 32 by decide)
    refine ofValue_low (fun i hi => ?_) ((hbit 0).trans (Bool.or_true _)) ((hbit 8).trans (Bool.or_false _))
    rw [pendingValue, if_pos rfl, hbit, decide_eq_false (show ¬ i = intIpShift by unfold intIpShift; omega), Bool.or_false]

section Addresses

theorem toNat_intReg {irq : Word} (h : irq < maxInterrupts) : (reg (intOffset irq)).toNat = 0xE0801000 + 4 * irq.toNat := by
  have hirq : irq.toNat < 144 := h
  simp only [reg, intOffset, clicBase, intBaseOffset, BitVec.toNat_add, BitVec.toNat_mul, BitVec.ofNat_eq_ofNat,
    BitVec.toNat_ofNat]
  omega

theorem intReg_injective {irq other : Word} (h : irq < maxInterrupts) (ho : other < maxInterrupts)
    (he : reg (intOffset irq) = reg (intOffset other)) : irq = other := by
  have hn := congrArg BitVec.toNat he
  rw [toNat_intReg h, toNat_intReg ho] at hn
  exact BitVec.eq_of_toNat_eq (by omega)

private theorem toNat_bit {gicIrq : Word} (h : 32 ≤ gicIrq) : (gicIrq - 32).toNat = gicIrq.toNat - 32 :=
  BitVec.toNat_sub_of_le h

theorem toNat_configReg {gicIrq : Word} (h : 32 ≤ gicIrq) :
    (SharedGicGroup.configReg gicIrq).toNat = 0x070210C0 + 4 * ((gicIrq.toNat - 32) / 32) := by
  have hlt := gicIrq.isLt
  have hindex : ((gicIrq - 32) / 32).toNat = (gicIrq.toNat - 32) / 32 := by
    rw [BitVec.toNat_udiv, toNat_bit h]
    rfl
  unfold SharedGicGroup.configReg
  generalize (gicIrq - 32) / 32 = index at hindex ⊢
  simp only [SharedGicGroup.reg, SharedGicGroup.gintcConfigReg0, sIntcBase, BitVec.toNat_add, BitVec.toNat_mul,
    BitVec.ofNat_eq_ofNat, BitVec.toNat_ofNat, hindex]
  omega

theorem toNat_configBit {gicIrq : Word} (h : 32 ≤ gicIrq) :
    ((gicIrq - 32) % 32).toNat = (gicIrq.toNat - 32) % 32 := by
  rw [BitVec.toNat_umod, toNat_bit h]
  rfl

end Addresses

section Refinement
variable (m : Memory)

/-- The registers other than those of the lines. -/
private theorem apart_intReg {irq : Word} (h : irq < maxInterrupts) :
    reg cfgOffset ≠ reg (intOffset irq) ∧ reg mintthreshOffset ≠ reg (intOffset irq) ∧
      ∀ gicIrq, 32 ≤ gicIrq → SharedGicGroup.configReg gicIrq ≠ reg (intOffset irq) := by
  have hreg := toNat_intReg h
  have hirq : irq.toNat < 144 := h
  refine ⟨fun he => ?_, fun he => ?_, fun gicIrq hg he => ?_⟩
  · have hn := congrArg BitVec.toNat he
    rw [hreg, show (reg cfgOffset).toNat = 0xE0800000 from rfl] at hn
    omega
  · have hn := congrArg BitVec.toNat he
    rw [hreg, show (reg mintthreshOffset).toNat = 0xE0800008 from rfl] at hn
    omega
  · have hn := congrArg BitVec.toNat he
    have hlt := gicIrq.isLt
    rw [hreg, toNat_configReg hg] at hn
    omega

theorem aligned_intReg {irq : Word} (h : irq < maxInterrupts) : (reg (intOffset irq)).toNat % 4 = 0 := by
  rw [toNat_intReg h]
  omega

private theorem aligned_configReg {gicIrq : Word} (h : 32 ≤ gicIrq) :
    (SharedGicGroup.configReg gicIrq).toNat % 4 = 0 := by
  rw [toNat_configReg h]
  omega

/-- A change of the register of a line is a change of the line. -/
theorem controller_setLine {irq : Word} (h : irq < maxInterrupts) {f : Word → Word} {g : Line → Line}
    (hfg : ∀ v, Line.ofValue (f v) = g (.ofValue v)) :
    controller (m.modify32 (reg (intOffset irq)) f) = (controller m).setLine irq g := by
  obtain ⟨hcfg, hthresh, hgic⟩ := apart_intReg h
  have halign := aligned_intReg h
  ext1
  · simp only [controller, Controller.setLine, load32_modify32 m f halign (show (reg cfgOffset).toNat % 4 = 0 from rfl),
      if_neg hcfg]
  · simp only [controller, Controller.setLine,
      load32_modify32 m f halign (show (reg mintthreshOffset).toNat % 4 = 0 from rfl), if_neg hthresh]
  · funext other
    simp only [controller, Controller.setLine, Function.update_apply]
    by_cases he : other = irq
    · subst he
      simp only [if_pos h, if_true, Option.map_some, load32_modify32 m f halign halign, hfg]
    · rw [if_neg he]
      split
      · rename_i ho
        have hne : reg (intOffset other) ≠ reg (intOffset irq) := fun hr => he (intReg_injective ho h hr)
        rw [load32_modify32 m f halign (aligned_intReg ho), if_neg hne]
      · rfl
  · funext gicIrq
    simp only [controller, Controller.setLine]
    by_cases hg : 32 ≤ gicIrq
    · rw [load32_modify32 m f halign (aligned_configReg hg), if_neg (hgic gicIrq hg)]
    · rw [decide_eq_false hg, Bool.false_and, Bool.false_and]

theorem setLine_none {c : Controller} {irq : Word} (h : c.line irq = none) (g : Line → Line) : c.setLine irq g = c := by
  rw [Controller.setLine, h, Option.map_none, ← h, Function.update_eq_self]

/-- There are no lines from `MAX_INTERRUPTS` on. -/
theorem setLine_outside {irq : Word} (h : irq ≥ maxInterrupts) (g : Line → Line) :
    (controller m).setLine irq g = controller m := setLine_none (if_neg (BitVec.not_lt.mpr h)) g

/-- A change of the bit of a GIC interrupt forwards it or does not. -/
theorem controller_setForwarded {gicIrq : Word} (h : 32 ≤ gicIrq) {f : Word → Word} {on : Bool}
    (hf : ∀ v i, (f v).getLsbD i = if i = ((gicIrq - 32) % 32).toNat then on else v.getLsbD i) :
    controller (m.modify32 (SharedGicGroup.configReg gicIrq) f) = (controller m).setForwarded gicIrq on := by
  have halign := aligned_configReg h
  have hcfg : reg cfgOffset ≠ SharedGicGroup.configReg gicIrq := by
    intro he
    have hn := congrArg BitVec.toNat he
    have hlt := gicIrq.isLt
    rw [toNat_configReg h, show (reg cfgOffset).toNat = 0xE0800000 from rfl] at hn
    omega
  have hthresh : reg mintthreshOffset ≠ SharedGicGroup.configReg gicIrq := by
    intro he
    have hn := congrArg BitVec.toNat he
    have hlt := gicIrq.isLt
    rw [toNat_configReg h, show (reg mintthreshOffset).toNat = 0xE0800008 from rfl] at hn
    omega
  ext1
  · simp only [controller, Controller.setForwarded,
      load32_modify32 m f halign (show (reg cfgOffset).toNat % 4 = 0 from rfl), if_neg hcfg]
  · simp only [controller, Controller.setForwarded,
      load32_modify32 m f halign (show (reg mintthreshOffset).toNat % 4 = 0 from rfl), if_neg hthresh]
  · funext irq
    simp only [controller, Controller.setForwarded]
    split
    · rename_i hirq
      rw [load32_modify32 m f halign (aligned_intReg hirq), if_neg ((apart_intReg hirq).2.2 gicIrq h).symm]
    · rfl
  · funext other
    simp only [controller, Controller.setForwarded, Function.update_apply]
    by_cases ho : 32 ≤ other
    · rw [load32_modify32 m f halign (aligned_configReg ho), decide_eq_true ho, Bool.true_and]
      by_cases he : other = gicIrq
      · subst he
        rw [if_pos rfl, if_pos rfl, hf, if_pos rfl, decide_eq_true ho, Bool.true_and]
      · rw [if_neg he]
        split
        · rename_i hr
          have hn := congrArg BitVec.toNat hr
          rw [toNat_configReg ho, toNat_configReg h] at hn
          have hne : ((other - 32) % 32).toNat ≠ ((gicIrq - 32) % 32).toNat := by
            rw [toNat_configBit ho, toNat_configBit h]
            intro hb
            have hle : 32 ≤ other.toNat := ho
            have hle' : 32 ≤ gicIrq.toNat := h
            exact he (BitVec.eq_of_toNat_eq (by omega))
          rw [hf, if_neg hne, Bool.true_and]
        · rfl
    · have hne : other ≠ gicIrq := fun he => ho (he ▸ h)
      rw [if_neg hne, decide_eq_false ho, Bool.false_and, Bool.false_and]

/-- The first interrupts of the GIC cannot be forwarded. -/
theorem setForwarded_below {gicIrq : Word} (h : gicIrq < 32) (on : Bool) :
    (controller m).setForwarded gicIrq on = controller m := by
  have hge : ¬ 32 ≤ gicIrq := BitVec.not_le.mpr h
  have hoff : (controller m).forwarded gicIrq = false := by
    simp only [controller, decide_eq_false hge, Bool.false_and]
  rw [Controller.setForwarded, decide_eq_false hge, Bool.false_and, ← hoff, Function.update_eq_self]

/-- The global registers are apart from the others. -/
private theorem controller_global (config : Bool) (v : Word) :
    controller (m.store32 (reg (if config then cfgOffset else mintthreshOffset)) v) =
      if config then { controller m with config := v } else { controller m with threshold := v } := by
  have halign : (reg (if config then cfgOffset else mintthreshOffset)).toNat % 4 = 0 := by cases config <;> rfl
  have hlines (irq : Word) (hirq : irq < maxInterrupts) :
      reg (intOffset irq) ≠ reg (if config then cfgOffset else mintthreshOffset) := by
    obtain ⟨hcfg, hthresh, -⟩ := apart_intReg hirq
    cases config with
    | true => exact hcfg.symm
    | false => exact hthresh.symm
  have hgic (gicIrq : Word) (hg : 32 ≤ gicIrq) :
      SharedGicGroup.configReg gicIrq ≠ reg (if config then cfgOffset else mintthreshOffset) := by
    intro he
    have hn := congrArg BitVec.toNat he
    have hlt := gicIrq.isLt
    have hbase : 0xE0800000 ≤ (reg (if config then cfgOffset else mintthreshOffset)).toNat := by cases config <;> decide
    rw [toNat_configReg hg] at hn
    omega
  have hline : (controller (m.store32 (reg (if config then cfgOffset else mintthreshOffset)) v)).line =
      (controller m).line := by
    funext irq
    simp only [controller]
    split
    · rename_i hirq
      rw [load32_store32_of_aligned m v halign (aligned_intReg hirq), if_neg (hlines irq hirq)]
    · rfl
  have hforwarded : (controller (m.store32 (reg (if config then cfgOffset else mintthreshOffset)) v)).forwarded =
      (controller m).forwarded := by
    funext gicIrq
    simp only [controller]
    by_cases hg : 32 ≤ gicIrq
    · rw [load32_store32_of_aligned m v halign (aligned_configReg hg), if_neg (hgic gicIrq hg)]
    · rw [decide_eq_false hg, Bool.false_and, Bool.false_and]
  cases config with
  | true =>
    refine Controller.ext (load32_store32 m _ v) ?_ hline hforwarded
    exact (load32_store32_of_aligned m v halign (by decide)).trans (if_neg (by decide))
  | false =>
    refine Controller.ext ?_ (load32_store32 m _ v) hline hforwarded
    exact (load32_store32_of_aligned m v halign (by decide)).trans (if_neg (by decide))

theorem controller_initGlobal : controller (initGlobal m) = { controller m with config := 0, threshold := 0 } := by
  have hcfg := controller_global m true 0
  have hthresh := controller_global (m.store32 (reg cfgOffset) 0) false 0
  simp only [if_true, Bool.false_eq_true, if_false] at hcfg hthresh
  rw [initGlobal, hthresh, hcfg]

theorem controller_enableForGicIrq (gicIrq : Word) :
    controller (SharedGicGroup.enableForGicIrq m gicIrq) = (controller m).setForwarded gicIrq true := by
  rw [SharedGicGroup.enableForGicIrq]
  split
  · rename_i h
    exact (setForwarded_below m h true).symm
  · rename_i h
    refine controller_setForwarded m (BitVec.not_lt.mp h) fun v i => ?_
    have hbit : ((gicIrq - 32) % 32).toNat < 32 := by
      rw [toNat_configBit (BitVec.not_lt.mp h)]
      omega
    rw [SharedGicGroup.configBit, getLsbD_setBit v hbit]
    split
    · rename_i hi
      rw [decide_eq_true hi, Bool.or_true]
    · rename_i hi
      rw [decide_eq_false hi, Bool.or_false]

theorem controller_disableForGicIrq (gicIrq : Word) :
    controller (SharedGicGroup.disableForGicIrq m gicIrq) = (controller m).setForwarded gicIrq false := by
  rw [SharedGicGroup.disableForGicIrq]
  split
  · rename_i h
    exact (setForwarded_below m h false).symm
  · rename_i h
    refine controller_setForwarded m (BitVec.not_lt.mp h) fun v i => ?_
    rw [SharedGicGroup.configBit, getLsbD_clear v]
    split
    · rename_i hi
      rw [decide_eq_false (not_not.mpr hi), Bool.and_false]
    · rename_i hi
      rw [decide_eq_true hi, Bool.and_true]

theorem isPending_eq (irq : Word) : isPending m irq = ((controller m).line irq).any (·.pending) := by
  rw [isPending]
  by_cases h : irq < maxInterrupts
  · have hline : (controller m).line irq = some (.ofValue (m.load32 (reg (intOffset irq)))) := if_pos h
    rw [decide_eq_true h, Bool.true_and, hline, Option.any_some]
    generalize m.load32 (reg (intOffset irq)) = v
    have hbit : v &&& (1#32 <<< intIpShift) = if v.getLsbD 0 then 1 else 0 := by
      apply BitVec.eq_of_getLsbD_eq
      intro i hi
      rw [BitVec.getLsbD_and]
      by_cases hz : i = 0
      · subst hz
        cases v.getLsbD 0 <;> rfl
      · have hone : (1#32).getLsbD i = false := by
          rw [BitVec.getLsbD_one, decide_eq_false hz, Bool.and_false]
        change (v.getLsbD i && (1#32).getLsbD i) = _
        rw [hone, Bool.and_false]
        split
        · exact hone.symm
        · exact BitVec.getLsbD_zero.symm
    rw [hbit]
    simp only [Line.ofValue]
    cases v.getLsbD 0 <;> rfl
  · have hline : (controller m).line irq = none := if_neg h
    rw [decide_eq_false h, Bool.false_and, hline]
    rfl

end Refinement

section Calls
variable (s : State)

theorem table_load (irq : Word) {f : Word → Word} {g : Line → Line} (hfg : ∀ v, Line.ofValue (f v) = g (.ofValue v)) :
    table (load s irq f) = (table s).load irq g := by
  rw [load, Table.load]
  split
  · rename_i hirq
    have hline : (controller s.mem).line irq = none := if_neg (BitVec.not_lt.mpr hirq)
    simp only [table, hline]
    split <;> simp_all
  · rename_i hirq
    have hline : (controller s.mem).line irq = some (.ofValue (s.mem.load32 (reg (intOffset irq)))) :=
      if_pos (BitVec.not_le.mp hirq)
    cases hheld : s.held with
    | some h => simp only [table, hheld, Option.map_some]
    | none => simp only [table, hheld, Option.map_none, Option.map_some, hline, hfg]

/-- The store puts back the whole register. -/
theorem table_store : table (store s) = (table s).store := by
  rw [store, Table.store]
  cases hheld : s.held with
  | none => simp only [table, hheld, Option.map_none]
  | some h =>
    have hline := controller_setLine s.mem (f := fun _ => h.value) (g := fun _ => .ofValue h.value) h.known fun _ => rfl
    rw [modify32] at hline
    simp only [table, hheld, Option.map_some, Option.map_none, hline]

theorem table_atomically (call : Memory → Memory) (change : Controller → Controller)
    (h : ∀ m, controller (call m) = change (controller m)) :
    table (atomically s call) = (table s).atomically change := by
  rw [atomically, Table.atomically]
  cases hheld : s.held with
  | none => simp [table, hheld, h]
  | some held => simp [table, hheld]

/-- Each step does to the table what it says, on the line or the GIC interrupt
that it names and on nothing else. -/
theorem table_step (a : Action) : table (step s a) = (table s).step a := by
  cases a with
  | initGlobal =>
    exact table_atomically s initGlobal (fun c => { c with config := 0, threshold := 0 }) controller_initGlobal
  | disable irq => exact table_load s irq (g := fun l => { l with enabled := false }) Line.ofValue_disable
  | enable irq priority trigger hardwareVectored =>
    exact table_load s irq fun v => Line.ofValue_enable v priority trigger hardwareVectored
  | clearPending irq => exact table_load s irq (g := fun l => { l with pending := false }) Line.ofValue_clearPending
  | store => exact table_store s
  | enableForGicIrq gicIrq => exact table_atomically s _ (·.setForwarded gicIrq true) (controller_enableForGicIrq · gicIrq)
  | disableForGicIrq gicIrq => exact table_atomically s _ (·.setForwarded gicIrq false) (controller_disableForGicIrq · gicIrq)
  | source irq pending =>
    rw [step]
    split
    · rename_i h
      simp only [Table.step, table, setLine_outside s.mem h]
    · rename_i h
      have hline := controller_setLine s.mem (g := fun l => { l with pending := pending }) (BitVec.not_le.mp h)
        fun v => Line.ofValue_pending v pending
      simp only [Table.step, table, hline]

end Calls

/-- What a source does between the load and the store of a call on its own line is
written over. -/
theorem source_lost {t : Table} (hidle : t.held = none) (irq : Word) (f : Line → Line) (pending : Bool) :
    ((t.load irq f).step (.source irq pending)).store = (t.load irq f).store := by
  obtain ⟨c, held⟩ := t
  obtain rfl : held = none := hidle
  cases hline : c.line irq with
  | none => simp [Table.step, Table.load, Table.store, hline, setLine_none hline]
  | some l => simp [Table.step, Table.load, Table.store, hline, Controller.setLine]

/-- The loop of `init`, after some of its rounds. -/
theorem run_disableAll {n : Nat} (hn : n ≤ 144) (c : Controller) :
    run Table.step ⟨c, none⟩ ((List.range n).flatMap fun i => [.disable (BitVec.ofNat 32 i), .store]) =
      ⟨{ c with line := fun irq =>
          if irq.toNat < n then (c.line irq).map fun l => { l with enabled := false } else c.line irq }, none⟩ := by
  induction n with
  | zero => rfl
  | succ n ih =>
    rw [List.range_succ, List.flatMap_append, run_append, ih (by omega)]
    have hnum : (BitVec.ofNat 32 n).toNat = n := by rw [BitVec.toNat_ofNat, Nat.mod_eq_of_lt (by omega)]
    have hcall (c : Controller) : run Table.step ⟨c, none⟩ [.disable (BitVec.ofNat 32 n), .store] =
        ⟨c.setLine (BitVec.ofNat 32 n) fun l => { l with enabled := false }, none⟩ := by
      cases hline : c.line (BitVec.ofNat 32 n) with
      | none => simp [Table.step, Table.load, Table.store, hline, setLine_none hline]
      | some l => simp [Table.step, Table.load, Table.store, hline, Controller.setLine]
    rw [List.flatMap_singleton, hcall]
    refine congrArg (Table.mk · none) (Controller.ext rfl rfl ?_ rfl)
    funext irq
    simp only [Controller.setLine, Function.update_apply, hnum]
    by_cases he : irq = BitVec.ofNat 32 n
    · subst he
      rw [if_pos rfl, hnum, if_neg (Nat.lt_irrefl n), if_pos (Nat.lt_succ_self n)]
    · have hne : irq.toNat ≠ n := fun h => he (BitVec.eq_of_toNat_eq (h.trans hnum.symm))
      rw [if_neg he]
      split
      · rw [if_pos (by omega)]
      · rw [if_neg (by omega)]

/-- `init`, with no source between its accesses, opens the threshold and disables
every line. -/
theorem run_init (m : Memory) :
    (table (run step ⟨m, none⟩ initActions)).controller =
      { controller m with
        config := 0
        threshold := 0
        line := fun irq => ((controller m).line irq).map fun l => { l with enabled := false } } := by
  rw [run_project (fun s a => table_step s a), initActions, run_cons]
  have hglobal : (table ⟨m, none⟩).step .initGlobal = ⟨{ controller m with config := 0, threshold := 0 }, none⟩ := rfl
  rw [hglobal, run_disableAll (by decide)]
  refine Controller.ext rfl rfl ?_ rfl
  funext irq
  simp only
  split
  · rfl
  · rename_i h
    have hline : (controller m).line irq = none := if_neg h
    rw [hline, Option.map_none]

/-- Over any run of calls and of the interrupt sources, which may act between the
load and the store of a call, the register memory is the table: a line has the
settings of its own last calls, no call reaches into another line or into the
forwarding, and a call puts back the pending bit that it has loaded. -/
theorem registers_are_table (s : State) (actions : List Action) :
    table (run step s actions) = run Table.step (table s) actions ∧
      ∀ irq, isPending (run step s actions).mem irq =
        ((run Table.step (table s) actions).controller.line irq).any (·.pending) := by
  have hrun := run_project (fun s a => table_step s a) s actions
  refine ⟨hrun, fun irq => ?_⟩
  rw [isPending_eq, ← hrun]
  rfl

end IoProcessor.Hal.Clic
