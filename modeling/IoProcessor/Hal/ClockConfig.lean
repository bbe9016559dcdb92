import Mathlib.Data.Fin.VecNotation
import IoProcessor.Hal.MemoryMap

/-! The clock configuration that Linux writes before it releases the core, and
how the firmware reads it. -/
namespace IoProcessor.Hal.Clocking
open Library MemoryMap

def clockConfigMagic : Word := 0x4B4C4343
def clockConfigAbiVersion : Word := 1
def configurationSize : Word := 64

/-- A configuration record, as the sixteen words it is copied by. -/
abbrev ClockConfiguration := Fin 16 → Word

namespace ClockConfiguration

def magic (c : ClockConfiguration) : Word := c 0
def abiVersion (c : ClockConfiguration) : Word := c 1
def sizeBytes (c : ClockConfiguration) : Word := c 2
def generation (c : ClockConfiguration) : Word := c 3
def riscvCoreHz (c : ClockConfiguration) : Word := c 4
def timerCounterHz (c : ClockConfiguration) : Word := c 5
def uartParentHz (c : ClockConfiguration) : Word := c 6
def spi0ParentHz (c : ClockConfiguration) : Word := c 7
def spi1ParentHz (c : ClockConfiguration) : Word := c 8
def flags (c : ClockConfiguration) : Word := c 9

def isValid (c : ClockConfiguration) : Bool :=
  c.magic == clockConfigMagic && c.abiVersion == clockConfigAbiVersion && c.sizeBytes == configurationSize &&
    c.generation != 0 && c.riscvCoreHz != 0 && c.timerCounterHz != 0

theorem isValid_iff (c : ClockConfiguration) : c.isValid = true ↔
    c.magic = clockConfigMagic ∧ c.abiVersion = clockConfigAbiVersion ∧ c.sizeBytes = configurationSize ∧
      c.generation ≠ 0 ∧ c.riscvCoreHz ≠ 0 ∧ c.timerCounterHz ≠ 0 := by
  simp [isValid, and_assoc]

end ClockConfiguration

def configurationWordAddr (i : Fin 16) : Word := ipcClockConfigAddr + 4 * BitVec.ofNat 32 i

def readSharedConfiguration (m : Memory) : ClockConfiguration := fun i => m.load32 (configurationWordAddr i)

end IoProcessor.Hal.Clocking
