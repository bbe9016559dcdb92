import IoProcessor.Library.Memory

/-! Addresses of memory_map.h that the modelled code uses, and the CLIC numbers
of the interrupt sources the firmware claims. -/
namespace IoProcessor.Hal.MemoryMap
open Library

def sramSharedBase : Word := 0x07130000

def ipcBootStatusAddr : Word := 0x07130000
def ipcClockConfigAddr : Word := 0x07131000
def ipcTraceBufferAddr : Word := 0x07136000
def ipcTraceBufferSize : Word := 0x00008000

/-- Each of the two records has sixteen words, so their indices have a zero. -/
instance recordWords : NeZero 16 := ⟨by decide⟩

def spi0Base : Word := 0x04025000
def spi1Base : Word := 0x04026000
def sSpi0Base : Word := 0x07092000
def sTwi0Base : Word := 0x07081400
def sTwi1Base : Word := 0x07081800
def sTwi2Base : Word := 0x07081C00
def pioBase : Word := 0x02000000
def rPioBase : Word := 0x07022000
def msgboxBase : Word := 0x03003000
def riscvMsgboxBase : Word := 0x07136000
def sIntcBase : Word := 0x07021000
def clicBase : Word := 0xE0800000

/-- `ClicIrq`: the interrupt sources with a line number of their own. -/
inductive ClicIrq where
  | riscvWdt | riscvMsgbox | mcuTimer0 | mcuDmacNs | gpioLS | gpioLNS | gpioMS | gpioMNS
  | sUart0 | sUart1 | sTwi0 | sTwi1 | sTwi2 | sSpi | cpusMsgboxRiscv
  | gicGroup32_39 | gicGroup40_47 | gicGroup48_55 | gicGroup56_63
  deriving DecidableEq, Repr

def ClicIrq.number : ClicIrq → Word
  | .riscvWdt => 16 | .riscvMsgbox => 17 | .mcuTimer0 => 25 | .mcuDmacNs => 37
  | .gpioLS => 62 | .gpioLNS => 63 | .gpioMS => 64 | .gpioMNS => 65
  | .sUart0 => 66 | .sUart1 => 67 | .sTwi0 => 68 | .sTwi1 => 69 | .sTwi2 => 60
  | .sSpi => 76 | .cpusMsgboxRiscv => 81
  | .gicGroup32_39 => 90 | .gicGroup40_47 => 91 | .gicGroup48_55 => 92 | .gicGroup56_63 => 93

end IoProcessor.Hal.MemoryMap
