import IoProcessor.Hal.BootStatus
import IoProcessor.Hal.ClockConfig
import IoProcessor.Ipc.Layout
import IoProcessor.Ipc.Ring
import IoProcessor.Library.Struct

/-! The records of remoteproc_control.py: how the host packs the clock
configuration and descriptors and unpacks the boot status. -/
namespace IoProcessor.Host
open Library Struct Hal MemoryMap

def clockMagic : Int := 0x4B4C4343
def bootMagic : Nat := 0x544F4F42
def abiVersion : Nat := 1
def abiSize : Nat := 64

def clockFormat : List Code := List.replicate 16 .I
def statusFormat : List Code := List.replicate 16 .I
def ipcDescriptorFormat : List Code := [.I, .I, .H, .H, .I]
def generationOffset : Nat := 3 * Code.I.size

def stateNames : List (Nat × String) :=
  [(0, "reset"), (1, "initializing"), (2, "ready"), (3, "init-failed"), (4, "crashed")]

structure ClockConfiguration where
  generation : Int
  riscvCoreHz : Int
  timerCounterHz : Int
  uartParentHz : Int := 0
  spi0ParentHz : Int := 0
  spi1ParentHz : Int := 0
  flags : Int := 0
  deriving DecidableEq, Repr

/-- The words of the record. -/
def ClockConfiguration.values (c : ClockConfiguration) (commit : Bool) : List Int :=
  [clockMagic, abiVersion, abiSize, if commit then c.generation else 0, c.riscvCoreHz, c.timerCounterHz,
    c.uartParentHz, c.spi0ParentHz, c.spi1ParentHz, c.flags, 0, 0, 0, 0, 0, 0]

def ClockConfiguration.pack (c : ClockConfiguration) (commit : Bool) : Except Error (List Byte) :=
  if c.generation ≤ 0 ∨ c.riscvCoreHz ≤ 0 ∨ c.timerCounterHz ≤ 0 then .error .valueError
  else Struct.pack (clockFormat.zip (c.values commit))

/-- A write to the device that maps the clock block, at an offset. -/
structure Write where
  offset : Nat
  bytes : List Byte

def Write.apply (m : Memory) (w : Write) : Memory := m.store (ipcClockConfigAddr + BitVec.ofNat 32 w.offset) w.bytes

/-- What it returns or raises, and the writes it has made by then. -/
def writeClockConfiguration (config : ClockConfiguration) (dryRun : Bool) : Except Error Unit × List Write :=
  match config.pack false with
  | .error e => (.error e, [])
  | .ok staged =>
    match Struct.pack [(.I, config.generation)] with
    | .error e => (.error e, [])
    | .ok committedGeneration =>
      if dryRun then (.ok (), []) else (.ok (), [⟨0, staged⟩, ⟨generationOffset, committedGeneration⟩])

structure BootStatus where
  magic : Nat
  abiVersion : Nat
  sizeBytes : Nat
  generation : Nat
  state : Nat
  failureReason : Nat
  clockConfigurationGeneration : Nat
  riscvCoreHz : Nat
  mcause : Nat
  mepc : Nat
  mtval : Nat
  deriving DecidableEq, Repr

/-- `cls(*fields[:11])`. -/
def BootStatus.ofFields (fields : List Nat) : BootStatus :=
  ⟨fields.getD 0 0, fields.getD 1 0, fields.getD 2 0, fields.getD 3 0, fields.getD 4 0, fields.getD 5 0,
    fields.getD 6 0, fields.getD 7 0, fields.getD 8 0, fields.getD 9 0, fields.getD 10 0⟩

def BootStatus.unpack (payload : List Byte) : Except Error BootStatus :=
  if payload.length ≠ abiSize then .error .valueError
  else (Struct.unpack statusFormat payload).map BootStatus.ofFields

def BootStatus.isValid (s : BootStatus) : Bool :=
  s.magic == bootMagic && s.abiVersion == Host.abiVersion && s.sizeBytes == abiSize && s.generation != 0 &&
    stateNames.any (·.1 == s.state)

structure IpcDescriptor where
  dramPayloadAddr : Int
  length : Int
  messageType : Int
  flags : Int
  timestampUs : Int
  deriving DecidableEq, Repr

def IpcDescriptor.values (d : IpcDescriptor) : List Int :=
  [d.dramPayloadAddr, d.length, d.messageType, d.flags, d.timestampUs]

def IpcDescriptor.limits : List Int := [0xFFFFFFFF, 0xFFFFFFFF, 0xFFFF, 0xFFFF, 0xFFFFFFFF]

def IpcDescriptor.pack (d : IpcDescriptor) : Except Error (List Byte) :=
  if (d.values.zip limits).any fun (value, limit) => value < 0 || limit < value then .error .valueError
  else Struct.pack (ipcDescriptorFormat.zip d.values)

end IoProcessor.Host
