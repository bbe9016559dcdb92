import IoProcessor.Hal.Gpio
import IoProcessor.Library.Noninterference
import IoProcessor.Library.Register

/-! The pins of Gpio in a flat register memory. Eight pins share a CFG register
and all pins of a bank share DATA and CTL, but no call reaches into the fields
of a pin that it does not name. -/
namespace IoProcessor.Hal.Gpio.Pins
open Library MemoryMap Noninterference

inductive PinMode where
  | input | output | intRising | intFalling | intBoth
  deriving DecidableEq, Repr

def PinMode.toWord : PinMode → Word
  | .input => 0 | .output => 1 | .intRising => 4 | .intFalling => 5 | .intBoth => 6

/-- The address of a bank's port registers. -/
def getPort (port : Word) : Word :=
  let base := if port ≥ portL then rPioBase else pioBase
  let bank := if port ≥ portL then port - portL else port
  base + bank * 0x30

/-- The registers of `PortRegs` and `IntRegs` that the calls below use. -/
inductive Reg where
  | cfg (i : Word) | data | intCfg (i : Word) | intCtl | intStatus
  deriving DecidableEq, Repr

def Reg.addr (port : Word) : Reg → Word
  | .cfg i => getPort port + 4 * i
  | .data => getPort port + 0x10
  | .intCfg i => intRegsAddr port + 4 * i
  | .intCtl => intRegsAddr port + 0x10
  | .intStatus => intRegsAddr port + 0x14

def setPin (m : Memory) (port pin : Word) : Memory := m.modify32 (Reg.data.addr port) (· ||| bit pin)

def clearPin (m : Memory) (port pin : Word) : Memory := m.modify32 (Reg.data.addr port) (· &&& ~~~(bit pin))

def togglePin (m : Memory) (port pin : Word) : Memory := m.modify32 (Reg.data.addr port) (· ^^^ bit pin)

/-- The place of a pin in its CFG register. -/
def bitOffset (pin : Word) : Nat := (pin % 8 * 4).toNat

def configurePin (m : Memory) (port pin : Word) (mode : PinMode) : Memory :=
  m.modify32 (Reg.addr port (.cfg (pin / 8))) fun val => replaceNibble val (bitOffset pin) mode.toWord

def enablePinInterrupt (m : Memory) (port pin : Word) (trigger : IntTrigger) : Memory :=
  let m := m.modify32 (Reg.addr port (.intCfg (pin / 8))) fun cfg => replaceNibble cfg (bitOffset pin) trigger.toWord
  let m := m.store32 (Reg.intStatus.addr port) (bit pin)
  m.modify32 (Reg.intCtl.addr port) (· ||| bit pin)

def disablePinInterrupt (m : Memory) (port pin : Word) : Memory :=
  let m := m.modify32 (Reg.intCtl.addr port) (· &&& ~~~(bit pin))
  m.store32 (Reg.intStatus.addr port) (bit pin)

/-- A pin of the chip: ports A to K and the two ports of the R_PIO block. -/
structure Pin where
  port : Word
  pin : Word
  port_exists : port.toNat ≤ 10 ∨ port = portL ∨ port = portM
  pin_lt : pin.toNat < 32
  deriving DecidableEq

inductive Op where
  | setPin | clearPin | togglePin
  | configurePin (mode : PinMode)
  | enablePinInterrupt (trigger : IntTrigger)
  | disablePinInterrupt
  deriving DecidableEq, Repr

structure Call where
  pin : Pin
  op : Op
  deriving DecidableEq

def Call.run (m : Memory) (c : Call) : Memory :=
  match c.op with
  | .setPin => setPin m c.pin.port c.pin.pin
  | .clearPin => clearPin m c.pin.port c.pin.pin
  | .togglePin => togglePin m c.pin.port c.pin.pin
  | .configurePin mode => configurePin m c.pin.port c.pin.pin mode
  | .enablePinInterrupt trigger => enablePinInterrupt m c.pin.port c.pin.pin trigger
  | .disablePinInterrupt => disablePinInterrupt m c.pin.port c.pin.pin

/-- What the registers hold about one pin. -/
structure PinState where
  data : Bool
  cfg : BitVec 4
  intCfg : BitVec 4
  intCtl : Bool
  deriving DecidableEq, Repr

def pinState (m : Memory) (p : Pin) : PinState where
  data := (m.load32 (Reg.data.addr p.port)).getLsbD p.pin.toNat
  cfg := (m.load32 (Reg.addr p.port (.cfg (p.pin / 8)))).extractLsb' (bitOffset p.pin) 4
  intCfg := (m.load32 (Reg.addr p.port (.intCfg (p.pin / 8)))).extractLsb' (bitOffset p.pin) 4
  intCtl := (m.load32 (Reg.intCtl.addr p.port)).getLsbD p.pin.toNat

/-- The index of a CFG register is below 4. -/
def Reg.InRange : Reg → Prop
  | .cfg i | .intCfg i => i.toNat < 4
  | .data | .intCtl | .intStatus => True

/-- The place of a register in its PIO block. -/
def Reg.offset (bank : Nat) : Reg → Nat
  | .cfg i => bank * 0x30 + 4 * i.toNat
  | .data => bank * 0x30 + 0x10
  | .intCfg i => 0x200 + bank * 0x20 + 4 * i.toNat
  | .intCtl => 0x200 + bank * 0x20 + 0x10
  | .intStatus => 0x200 + bank * 0x20 + 0x14

theorem Reg.offset_lt {bank : Nat} (hbank : bank ≤ 10) {r : Reg} (hr : r.InRange) :
    r.offset bank < 0x400 ∧ r.offset bank % 4 = 0 := by
  cases r <;> simp only [Reg.InRange, Reg.offset] at hr ⊢ <;> omega

/-- The port registers of eleven banks end before the interrupt registers
begin, and no two registers share a place. -/
theorem Reg.offset_inj {bank bank' : Nat} (hbank : bank ≤ 10) (hbank' : bank' ≤ 10) {r r' : Reg} (hr : r.InRange)
    (hr' : r'.InRange) (h : r.offset bank = r'.offset bank') : bank = bank' ∧ r = r' := by
  cases r <;> cases r' <;> simp only [Reg.InRange, Reg.offset] at hr hr' h <;>
    simp only [Reg.cfg.injEq, Reg.intCfg.injEq, reduceCtorEq, and_false, and_true, ← BitVec.toNat_inj] <;> omega

/-- The PIO block of a port and its bank in it. -/
def Pin.Block (p : Pin) (base bank : Nat) : Prop :=
  (base = 0x02000000 ∧ bank = p.port.toNat ∧ bank ≤ 10) ∨ (base = 0x07022000 ∧ p.port.toNat = bank + 16 ∧ bank ≤ 1)

theorem Pin.exists_block (p : Pin) :
    ∃ base bank, p.Block base bank ∧ (getPort p.port).toNat = base + bank * 0x30 ∧
      (intRegsAddr p.port).toNat = base + 0x200 + bank * 0x20 := by
  rcases p.port_exists with h | h | h
  · refine ⟨0x02000000, p.port.toNat, .inl ⟨rfl, rfl, h⟩, ?_⟩
    have hlow : ¬ p.port ≥ portL := by
      rw [ge_iff_le, BitVec.le_def]
      simp only [portL, BitVec.ofNat_eq_ofNat, BitVec.toNat_ofNat]
      omega
    simp only [getPort, intRegsAddr, if_neg hlow, pioBase, BitVec.toNat_add, BitVec.toNat_mul, BitVec.ofNat_eq_ofNat,
      BitVec.toNat_ofNat]
    omega
  · exact ⟨0x07022000, 0, .inr ⟨rfl, by rw [h]; rfl, by omega⟩, by rw [h]; decide⟩
  · exact ⟨0x07022000, 1, .inr ⟨rfl, by rw [h]; rfl, by omega⟩, by rw [h]; decide⟩

theorem Reg.addr_toNat (p : Pin) {r : Reg} (hr : r.InRange) :
    ∃ base bank, p.Block base bank ∧ bank ≤ 10 ∧ (r.addr p.port).toNat = base + r.offset bank := by
  obtain ⟨base, bank, hblock, hport, hint⟩ := p.exists_block
  have hbase : base ≤ 0x07022000 ∧ bank ≤ 10 := by
    rcases hblock with h | h <;> omega
  refine ⟨base, bank, hblock, hbase.2, ?_⟩
  cases r <;> simp only [Reg.addr, Reg.offset, Reg.InRange, BitVec.toNat_add, BitVec.toNat_mul, BitVec.ofNat_eq_ofNat,
    BitVec.toNat_ofNat, hport, hint] at hr ⊢ <;> omega

theorem Reg.addr_aligned (p : Pin) {r : Reg} (hr : r.InRange) : (r.addr p.port).toNat % 4 = 0 := by
  obtain ⟨base, bank, hblock, hbank, haddr⟩ := Reg.addr_toNat p hr
  have hoffset := Reg.offset_lt hbank hr
  rcases hblock with h | h <;> omega

theorem Reg.addr_inj {p q : Pin} {r r' : Reg} (hr : r.InRange) (hr' : r'.InRange) :
    r.addr p.port = r'.addr q.port ↔ p.port = q.port ∧ r = r' := by
  constructor
  · intro h
    obtain ⟨base, bank, hblock, hbank, haddr⟩ := Reg.addr_toNat p hr
    obtain ⟨base', bank', hblock', hbank', haddr'⟩ := Reg.addr_toNat q hr'
    have heq : base + r.offset bank = base' + r'.offset bank' := by rw [← haddr, ← haddr', h]
    have hlt := Reg.offset_lt hbank hr
    have hlt' := Reg.offset_lt hbank' hr'
    have hbase : base = base' := by
      rcases hblock with hb | hb <;> rcases hblock' with hb' | hb' <;> omega
    obtain ⟨hb, hreg⟩ := Reg.offset_inj hbank hbank' hr hr' (by omega)
    refine ⟨BitVec.eq_of_toNat_eq ?_, hreg⟩
    rcases hblock with hb | hb <;> rcases hblock' with hb' | hb' <;> omega
  · rintro ⟨hp, rfl⟩
    rw [hp]

section Fields
variable (m : Memory) (p q : Pin)

@[simp] theorem Reg.inRange_cfg : (Reg.cfg (p.pin / 8#32)).InRange := by
  have hp := p.pin_lt
  show (p.pin / 8).toNat < 4
  rw [BitVec.toNat_udiv]
  exact Nat.div_lt_of_lt_mul hp

@[simp] theorem Reg.inRange_intCfg : (Reg.intCfg (p.pin / 8#32)).InRange := Reg.inRange_cfg p

@[simp] theorem Reg.inRange_data : Reg.data.InRange := trivial
@[simp] theorem Reg.inRange_intCtl : Reg.intCtl.InRange := trivial
@[simp] theorem Reg.inRange_intStatus : Reg.intStatus.InRange := trivial

theorem load32_modify32_reg {r r' : Reg} (f : Word → Word) (hr : r.InRange) (hr' : r'.InRange) :
    (m.modify32 (r.addr q.port) f).load32 (r'.addr p.port) =
      if p.port = q.port ∧ r' = r then f (m.load32 (r'.addr p.port)) else m.load32 (r'.addr p.port) := by
  rw [Memory.load32_modify32 m f (Reg.addr_aligned q hr) (Reg.addr_aligned p hr')]
  simp only [Reg.addr_inj hr' hr]

/-- An access to DATA, as a pin sees it. -/
theorem pinState_data (f : Word → Word) :
    pinState (m.modify32 (Reg.data.addr q.port) f) p =
      { pinState m p with
        data := (if p.port = q.port then f (m.load32 (Reg.data.addr p.port))
          else m.load32 (Reg.data.addr p.port)).getLsbD p.pin.toNat } := by
  simp [pinState, load32_modify32_reg]

theorem pinState_cfg (f : Word → Word) :
    pinState (m.modify32 (Reg.addr q.port (.cfg (q.pin / 8))) f) p =
      { pinState m p with
        cfg := (if p.port = q.port ∧ p.pin / 8 = q.pin / 8 then f (m.load32 (Reg.addr p.port (.cfg (p.pin / 8))))
          else m.load32 (Reg.addr p.port (.cfg (p.pin / 8)))).extractLsb' (bitOffset p.pin) 4 } := by
  simp [pinState, load32_modify32_reg]

theorem pinState_intCfg (f : Word → Word) :
    pinState (m.modify32 (Reg.addr q.port (.intCfg (q.pin / 8))) f) p =
      { pinState m p with
        intCfg := (if p.port = q.port ∧ p.pin / 8 = q.pin / 8 then f (m.load32 (Reg.addr p.port (.intCfg (p.pin / 8))))
          else m.load32 (Reg.addr p.port (.intCfg (p.pin / 8)))).extractLsb' (bitOffset p.pin) 4 } := by
  simp [pinState, load32_modify32_reg]

theorem pinState_intCtl (f : Word → Word) :
    pinState (m.modify32 (Reg.intCtl.addr q.port) f) p =
      { pinState m p with
        intCtl := (if p.port = q.port then f (m.load32 (Reg.intCtl.addr p.port))
          else m.load32 (Reg.intCtl.addr p.port)).getLsbD p.pin.toNat } := by
  simp [pinState, load32_modify32_reg]

/-- STATUS holds nothing of the pin's state. -/
theorem pinState_intStatus (v : Word) : pinState (m.store32 (Reg.intStatus.addr q.port) v) p = pinState m p := by
  have h : m.store32 (Reg.intStatus.addr q.port) v = m.modify32 (Reg.intStatus.addr q.port) fun _ => v := rfl
  simp [pinState, h, load32_modify32_reg]

end Fields

/-- Two pins of a port are different bits. -/
theorem getLsbD_bit (pin : Word) (p : Pin) :
    (bit pin).getLsbD p.pin.toNat = decide (p.pin = pin) := by
  have hp := p.pin_lt
  rw [bit, BitVec.getLsbD_shiftLeft, BitVec.getLsbD_one]
  simp only [← BitVec.toNat_inj]
  grind

/-- Two pins of a CFG register are different fields of it. -/
theorem bitOffset_apart {p q : Word} (hreg : p / 8 = q / 8) (h : p ≠ q) :
    bitOffset p + 4 ≤ bitOffset q ∨ bitOffset q + 4 ≤ bitOffset p := by
  have hdiv := congrArg BitVec.toNat hreg
  have hne : p.toNat ≠ q.toNat := fun he => h (BitVec.eq_of_toNat_eq he)
  simp only [bitOffset, BitVec.toNat_udiv, BitVec.toNat_mul, BitVec.toNat_umod, BitVec.ofNat_eq_ofNat,
    BitVec.toNat_ofNat] at hdiv ⊢
  norm_num at hdiv ⊢
  omega

theorem bitOffset_le (pin : Word) : bitOffset pin + 4 ≤ 32 := by
  simp only [bitOffset, BitVec.toNat_mul, BitVec.toNat_umod, BitVec.ofNat_eq_ofNat, BitVec.toNat_ofNat]
  norm_num
  omega

/-- A change of one bit is a change of one pin. -/
theorem getLsbD_setBit (p q : Pin) (w : Word) :
    (w ||| bit q.pin).getLsbD p.pin.toNat = (w.getLsbD p.pin.toNat || decide (p.pin = q.pin)) := by
  rw [BitVec.getLsbD_or, getLsbD_bit q.pin]

theorem getLsbD_clearBit (p q : Pin) (w : Word) :
    (w &&& ~~~(bit q.pin)).getLsbD p.pin.toNat = (w.getLsbD p.pin.toNat && !decide (p.pin = q.pin)) := by
  rw [BitVec.getLsbD_and, BitVec.getLsbD_not, getLsbD_bit q.pin, decide_eq_true p.pin_lt, Bool.true_and]

theorem getLsbD_toggleBit (p q : Pin) (w : Word) :
    (w ^^^ bit q.pin).getLsbD p.pin.toNat = (w.getLsbD p.pin.toNat ^^ decide (p.pin = q.pin)) := by
  rw [BitVec.getLsbD_xor, getLsbD_bit q.pin]

/-- What a call on a pin does to that pin. -/
def Op.apply (s : PinState) : Op → PinState
  | .setPin => { s with data := true }
  | .clearPin => { s with data := false }
  | .togglePin => { s with data := !s.data }
  | .configurePin mode => { s with cfg := mode.toWord.extractLsb' 0 4 }
  | .enablePinInterrupt trigger => { s with intCfg := trigger.toWord.extractLsb' 0 4, intCtl := true }
  | .disablePinInterrupt => { s with intCtl := false }

theorem pinState_run_self (m : Memory) (c : Call) : pinState (c.run m) c.pin = c.op.apply (pinState m c.pin) := by
  obtain ⟨q, op⟩ := c
  cases op <;> simp only [Call.run, Op.apply, setPin, clearPin, togglePin, configurePin, enablePinInterrupt,
    disablePinInterrupt, pinState_data, pinState_cfg, pinState_intCfg, pinState_intCtl, pinState_intStatus, and_self,
    if_true, getLsbD_setBit, getLsbD_clearBit, getLsbD_toggleBit, replaceNibble_self _ _ (bitOffset_le q.pin),
    decide_true, Bool.or_true, Bool.not_true, Bool.and_false, Bool.xor_true]
  -- The old level is left.
  case togglePin => rfl

theorem Pin.pin_ne {p q : Pin} (h : p ≠ q) (hport : p.port = q.port) : p.pin ≠ q.pin := by
  intro hpin
  cases p
  cases q
  simp_all

section Other
variable (m : Memory) {p q : Pin}

/-- The bit of another pin keeps its value. -/
theorem getLsbD_other (h : p ≠ q) {f : Word → Word}
    (hf : ∀ w, p.pin ≠ q.pin → (f w).getLsbD p.pin.toNat = w.getLsbD p.pin.toNat) (w : Word) :
    (if p.port = q.port then f w else w).getLsbD p.pin.toNat = w.getLsbD p.pin.toNat := by
  split
  · rename_i hport
    exact hf w (Pin.pin_ne h hport)
  · rfl

/-- So does its nibble. -/
theorem extractLsb_other (h : p ≠ q) (w v : Word) :
    (if p.port = q.port ∧ p.pin / 8 = q.pin / 8 then replaceNibble w (bitOffset q.pin) v else w).extractLsb'
      (bitOffset p.pin) 4 = w.extractLsb' (bitOffset p.pin) 4 := by
  split
  · rename_i hreg
    exact replaceNibble_other w v (bitOffset_apart hreg.2 (Pin.pin_ne h hreg.1)) (bitOffset_le p.pin)
  · rfl

theorem setBit_other (w : Word) (h : p.pin ≠ q.pin) :
    (w ||| bit q.pin).getLsbD p.pin.toNat = w.getLsbD p.pin.toNat := by
  rw [getLsbD_setBit, decide_eq_false h, Bool.or_false]

theorem clearBit_other (w : Word) (h : p.pin ≠ q.pin) :
    (w &&& ~~~(bit q.pin)).getLsbD p.pin.toNat = w.getLsbD p.pin.toNat := by
  rw [getLsbD_clearBit, decide_eq_false h, Bool.not_false, Bool.and_true]

theorem toggleBit_other (w : Word) (h : p.pin ≠ q.pin) :
    (w ^^^ bit q.pin).getLsbD p.pin.toNat = w.getLsbD p.pin.toNat := by
  rw [getLsbD_toggleBit, decide_eq_false h, Bool.xor_false]

theorem pinState_data_other (h : p ≠ q) {f : Word → Word}
    (hf : ∀ w, p.pin ≠ q.pin → (f w).getLsbD p.pin.toNat = w.getLsbD p.pin.toNat) :
    pinState (m.modify32 (Reg.data.addr q.port) f) p = pinState m p := by
  rw [pinState_data, getLsbD_other h hf]
  rfl

theorem pinState_intCtl_other (h : p ≠ q) {f : Word → Word}
    (hf : ∀ w, p.pin ≠ q.pin → (f w).getLsbD p.pin.toNat = w.getLsbD p.pin.toNat) :
    pinState (m.modify32 (Reg.intCtl.addr q.port) f) p = pinState m p := by
  rw [pinState_intCtl, getLsbD_other h hf]
  rfl

theorem configurePin_other (h : p ≠ q) (mode : PinMode) :
    pinState (configurePin m q.port q.pin mode) p = pinState m p := by
  unfold configurePin
  rw [pinState_cfg, extractLsb_other h]
  rfl

theorem enablePinInterrupt_other (h : p ≠ q) (trigger : IntTrigger) :
    pinState (enablePinInterrupt m q.port q.pin trigger) p = pinState m p := by
  unfold enablePinInterrupt
  simp only
  rw [pinState_intCtl_other _ h setBit_other, pinState_intStatus, pinState_intCfg, extractLsb_other h]
  rfl

theorem disablePinInterrupt_other (h : p ≠ q) : pinState (disablePinInterrupt m q.port q.pin) p = pinState m p := by
  unfold disablePinInterrupt
  simp only
  rw [pinState_intStatus, pinState_intCtl_other _ h clearBit_other]

theorem pinState_run_other {c : Call} (h : p ≠ c.pin) : pinState (c.run m) p = pinState m p := by
  obtain ⟨q, op⟩ := c
  cases op with
  | setPin =>
    simp only [Call.run, setPin]
    exact pinState_data_other m h setBit_other
  | clearPin =>
    simp only [Call.run, clearPin]
    exact pinState_data_other m h clearBit_other
  | togglePin =>
    simp only [Call.run, togglePin]
    exact pinState_data_other m h toggleBit_other
  | configurePin mode => exact configurePin_other m h mode
  | enablePinInterrupt trigger => exact enablePinInterrupt_other m h trigger
  | disablePinInterrupt => exact disablePinInterrupt_other m h

end Other

/-- A pin sees only the calls that name it. -/
theorem unwinds (p : Pin) : Unwinds Call.run (fun m => pinState m p) fun c => c.pin = p where
  foreign m c h := pinState_run_other m (Ne.symm h)
  consistent m n c h hmn := by
    subst h
    rw [pinState_run_self, pinState_run_self, hmn]

def run (m : Memory) (calls : List Call) : Memory := calls.foldl Call.run m

theorem pins_independent (m : Memory) (calls : List Call) (p : Pin) :
    pinState (run m calls) p = pinState (run m (calls.filter fun c => c.pin = p)) p :=
  (unwinds p).observe_foldl calls rfl

end IoProcessor.Hal.Gpio.Pins
