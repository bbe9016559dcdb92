import IoProcessor.Library.Memory

/-! `UartDmaDriver::init` on the registers of the UART, two of which are the
divisor latch while bit 7 of LCR is set. -/
namespace IoProcessor.Hal.UartDma.Init
open Library

/-- The UART behind its registers, and the bytes put on the line so far. -/
structure Uart where
  dll : Byte
  dlh : Byte
  ier : Byte
  fcr : Byte
  lcr : Byte
  sent : List Byte
  deriving DecidableEq, Repr

inductive Register where
  | rbrThrDll | dlhIer | iirFcr | lcr
  deriving DecidableEq, Repr

def Uart.dlab (u : Uart) : Bool := u.lcr.getLsbD 7

def Uart.write (u : Uart) (r : Register) (v : Word) : Uart :=
  let b : Byte := v.setWidth 8
  match r with
  | .rbrThrDll => if u.dlab then { u with dll := b } else { u with sent := u.sent ++ [b] }
  | .dlhIer => if u.dlab then { u with dlh := b } else { u with ier := b }
  | .iirFcr => { u with fcr := b }
  | .lcr => { u with lcr := b }

/-- The defaults that stand in for zero. -/
def parentClock (parentClockHz : Word) : Word := if parentClockHz = 0 then 24000000 else parentClockHz
def lineRate (baudrate : Word) : Word := if baudrate = 0 then 115200 else baudrate

/-- None where the source divides by zero. -/
def divisor (baudrate parentClockHz : Word) : Option Word :=
  if 16 * lineRate baudrate = 0 then none
  else
    let divisor := parentClock parentClockHz / (16 * lineRate baudrate)
    some (if divisor = 0 then 1 else divisor)

def init (u : Uart) (baudrate parentClockHz : Word) : Option Uart := do
  let divisor ← divisor baudrate parentClockHz
  let u := u.write .lcr 0x80
  let u := u.write .rbrThrDll (divisor &&& 0xFF)
  let u := u.write .dlhIer ((divisor >>> 8) &&& 0xFF)
  let u := u.write .lcr 0x03
  let u := u.write .iirFcr 0x07
  some (u.write .dlhIer 0x01)

/-- The divisor latch. -/
def Uart.latch (u : Uart) : Nat := 256 * u.dlh.toNat + u.dll.toNat

theorem lineRate_pos (baudrate : Word) : 0 < (lineRate baudrate).toNat := by
  unfold lineRate
  split
  · decide
  · rename_i h
    exact Nat.pos_of_ne_zero fun hz => h (BitVec.eq_of_toNat_eq hz)

theorem toNat_sixteenfold (w : Word) : (16 * w).toNat = 16 * w.toNat % 2^32 := by
  rw [BitVec.toNat_mul]
  rfl

theorem divisor_eq_none_iff (baudrate parentClockHz : Word) :
    divisor baudrate parentClockHz = none ↔ 2^28 ∣ (lineRate baudrate).toNat := by
  have hzero : 16 * lineRate baudrate = 0 ↔ 16 * (lineRate baudrate).toNat % 2^32 = 0 := by
    rw [← BitVec.toNat_inj, toNat_sixteenfold]
    rfl
  unfold divisor
  split
  · rename_i h
    refine iff_of_true rfl ?_
    have := hzero.mp h
    omega
  · rename_i h
    refine iff_of_false (by simp) fun hd => h (hzero.mpr ?_)
    omega

theorem divisor_toNat {baudrate parentClockHz d : Word} (h : divisor baudrate parentClockHz = some d) :
    d.toNat = max 1 ((parentClock parentClockHz).toNat / (16 * (lineRate baudrate).toNat % 2^32)) := by
  unfold divisor at h
  split at h
  · cases h
  simp only [Option.some.injEq] at h
  rw [← toNat_sixteenfold, ← BitVec.toNat_udiv, ← h]
  split
  · rename_i hz
    rw [hz]
    rfl
  · rename_i hnz
    have hpos : (parentClock parentClockHz / (16 * lineRate baudrate)).toNat ≠ 0 := fun hz =>
      hnz (BitVec.eq_of_toNat_eq hz)
    omega

/-- The two latch bytes hold the low half of the divisor. -/
theorem latch_bytes (d : Word) :
    256 * (BitVec.setWidth 8 ((d >>> 8) &&& 0xFF)).toNat + (BitVec.setWidth 8 (d &&& 0xFF)).toNat = d.toNat % 2^16 := by
  have hmask (n : Nat) : n &&& 255 = n % 256 := Nat.and_two_pow_sub_one_eq_mod n 8
  simp only [BitVec.toNat_setWidth, BitVec.toNat_and, BitVec.toNat_ushiftRight, BitVec.ofNat_eq_ofNat, BitVec.toNat_ofNat,
    Nat.shiftRight_eq_div_pow]
  norm_num [hmask]
  omega

/-- The latch is reached with DLAB set and everything else with DLAB clear. -/
theorem init_eq_some {u u' : Uart} {baudrate parentClockHz : Word} (h : init u baudrate parentClockHz = some u') :
    u'.sent = u.sent ∧ u'.lcr = 0x03 ∧ u'.ier = 0x01 ∧ u'.fcr = 0x07 ∧
      ∃ d, divisor baudrate parentClockHz = some d ∧ u'.latch = d.toNat % 2^16 := by
  rw [init] at h
  rcases hd : divisor baudrate parentClockHz with - | d
  · rw [hd] at h
    cases h
  rw [hd] at h
  have hset : BitVec.getLsbD (BitVec.setWidth 8 (0x80 : Word)) 7 = true := rfl
  have hclear : BitVec.getLsbD (BitVec.setWidth 8 (0x03 : Word)) 7 = false := rfl
  simp only [Option.bind_eq_bind, Option.bind_some, Option.some.injEq, Uart.write, Uart.dlab, hset, hclear, if_true,
    Bool.false_eq_true, if_false] at h
  subst h
  exact ⟨rfl, rfl, rfl, rfl, d, rfl, latch_bytes d⟩

/-- For every state of the UART: the divisor is that of the largest rate step
not below the one asked for, wherever the latch can hold it and sixteen times
the rate is a word, nothing is put on the line, and interrupts are enabled last.
Only multiples of 2^28 make the source divide by zero. -/
theorem init_programs_rate (u : Uart) (baudrate parentClockHz : Word) :
    let rate := (lineRate baudrate).toNat
    let parent := (parentClock parentClockHz).toNat
    (init u baudrate parentClockHz = none ↔ 2^28 ∣ rate) ∧
      ∀ u', init u baudrate parentClockHz = some u' →
        (u'.sent = u.sent ∧ u'.lcr = 0x03 ∧ u'.ier = 0x01 ∧ u'.fcr = 0x07) ∧
        u'.latch = max 1 (parent / (16 * rate % 2^32)) % 2^16 ∧
        (16 * rate ≤ parent → 16 * rate < 2^32 → parent < 16 * rate * 2^16 →
          16 * rate * u'.latch ≤ parent ∧ parent < 16 * rate * (u'.latch + 1)) := by
  intro rate parent
  constructor
  · rw [← divisor_eq_none_iff baudrate parentClockHz]
    unfold init
    cases divisor baudrate parentClockHz <;> simp
  · intro u' h
    obtain ⟨hsent, hlcr, hier, hfcr, d, hd, hlatch⟩ := init_eq_some h
    have hvalue := divisor_toNat hd
    have hpos : 0 < rate := lineRate_pos baudrate
    rw [hvalue] at hlatch
    refine ⟨⟨hsent, hlcr, hier, hfcr⟩, hlatch, fun hle hword hsmall => ?_⟩
    have hquotient : u'.latch = parent / (16 * rate) := by
      have hone : 1 ≤ parent / (16 * rate) := Nat.div_pos hle (by omega)
      have hfits : parent / (16 * rate) < 2^16 := Nat.div_lt_of_lt_mul hsmall
      rw [hlatch, Nat.mod_eq_of_lt hword, Nat.max_eq_right hone, Nat.mod_eq_of_lt hfits]
    rw [hquotient]
    exact ⟨Nat.mul_div_le parent (16 * rate), Nat.lt_mul_div_succ parent (by omega)⟩

end IoProcessor.Hal.UartDma.Init
