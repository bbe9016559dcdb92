import IoProcessor.Hal.TimerAccess
import IoProcessor.Library.Codec
import IoProcessor.Library.Copies

/-! The handwritten barectf tracer: events go into a buffer that holds one packet
at a time. -/
namespace IoProcessor.Tracing
open Library Memory Hal.HardwareTimer

/-- The cycle counter, by the accesses to it. -/
abbrev Cycles := Counter Nat

def nanoseconds (cycles : BitVec 64) : BitVec 64 := cycles * 5 / 3

/-- The time, and the access behind those of the call. -/
def getNs (c : Cycles) (k : Nat) : BitVec 64 × Nat :=
  let (cycles, k) := readCounter c k
  (nanoseconds cycles, k)

structure PacketHeader where
  magic : Word
  streamId : Word
  packetSize : Word
  contentSize : Word
  timestampBegin : BitVec 64
  timestampEnd : BitVec 64
  packetSeq : Word
  deriving DecidableEq, Repr

def sizeofPacketHeader : Word := 36

def ctfMagic : Word := 0xC1FC1FC1

inductive EventId where
  | taskSwitch | spiTransfer | uartFrame
  deriving DecidableEq, Repr

def EventId.code : EventId → Byte
  | .taskSwitch => 0
  | .spiTransfer => 1
  | .uartFrame => 2

structure Context where
  buf : Word
  bufSize : Word
  bufPos : Word
  packetSeq : Word
  packetStartTime : BitVec 64
  deriving DecidableEq, Repr

/-- The context with the memory it writes to and the accesses made to the cycle
counter. `flushed` is a history: the buffer as each flush left it. -/
structure Machine where
  ctx : Context
  memory : Memory
  access : Nat
  flushed : List (List Byte)

def Machine.contents (m : Machine) : List Byte := m.memory.read ⟨m.ctx.buf, m.ctx.bufSize⟩

def init (c : Cycles) (memory : Memory) (access : Nat) (buffer size : Word) : Machine :=
  let (now, k) := getNs c access
  { ctx := { buf := buffer, bufSize := size, bufPos := sizeofPacketHeader, packetSeq := 0, packetStartTime := now }
    memory := memory
    access := k
    flushed := [] }

def flushPacket (c : Cycles) (m : Machine) : Machine :=
  if m.ctx.bufPos ≤ sizeofPacketHeader then m
  else
    let (timestampEnd, k) := getNs c m.access
    let memory := m.memory.copyAll m.ctx.buf
      [(0, littleEndian 4 ctfMagic), (4, littleEndian 4 (0 : Word)), (8, littleEndian 4 (m.ctx.bufSize * 8)),
        (12, littleEndian 4 (m.ctx.bufPos * 8)), (16, littleEndian 8 m.ctx.packetStartTime),
        (24, littleEndian 8 timestampEnd), (32, littleEndian 4 m.ctx.packetSeq)]
    let (now, k) := getNs c k
    { ctx := { m.ctx with
        packetSeq := m.ctx.packetSeq + 1
        bufPos := sizeofPacketHeader
        packetStartTime := now }
      memory := memory
      access := k
      flushed := m.flushed ++ [memory.read ⟨m.ctx.buf, m.ctx.bufSize⟩] }

def ensureSpace (c : Cycles) (m : Machine) (len : Word) : Machine × Bool :=
  let m := if m.ctx.bufSize < m.ctx.bufPos + len then flushPacket c m else m
  (m, decide (m.ctx.bufPos + len ≤ m.ctx.bufSize))

/-- What the trace functions do: `space` is what they ask for, the copies are
those of the payload and `size` is what they advance by. -/
def traceEvent (c : Cycles) (m : Machine) (space : Word) (evId : EventId) (payload : List (Word × List Byte))
    (size : Word) : Machine :=
  let (m, room) := ensureSpace c m space
  if !room then m
  else
    let (ts, k) := getNs c m.access
    { m with
      memory := m.memory.copyAll (m.ctx.buf + m.ctx.bufPos) ((0, [evId.code]) :: (1, littleEndian 8 ts) :: payload)
      access := k
      ctx := { m.ctx with bufPos := m.ctx.bufPos + size } }

def traceTaskSwitch (c : Cycles) (m : Machine) (taskId state : Word) : Machine :=
  traceEvent c m 16 .taskSwitch [(9, littleEndian 2 taskId), (11, littleEndian 1 state)] 12

def traceSpiTransfer (c : Cycles) (m : Machine) (csId len durationNs : Word) : Machine :=
  traceEvent c m 20 .spiTransfer
    [(9, littleEndian 1 csId), (10, littleEndian 4 len), (14, littleEndian 4 durationNs)] 18

def traceUartFrame (c : Cycles) (m : Machine) (len timeoutUs : Word) : Machine :=
  traceEvent c m 20 .uartFrame [(9, littleEndian 4 len), (13, littleEndian 4 timeoutUs)] 17

inductive Call where
  | taskSwitch (taskId state : Word)
  | spiTransfer (csId len durationNs : Word)
  | uartFrame (len timeoutUs : Word)
  | flush
  deriving DecidableEq, Repr

def step (c : Cycles) (m : Machine) : Call → Machine
  | .taskSwitch taskId state => traceTaskSwitch c m taskId state
  | .spiTransfer csId len durationNs => traceSpiTransfer c m csId len durationNs
  | .uartFrame len timeoutUs => traceUartFrame c m len timeoutUs
  | .flush => flushPacket c m

theorem getNs_moment (c : Cycles) (k : Nat) :
    ∃ j, k ≤ j ∧ j < (getNs c k).2 ∧ (getNs c k).1 = nanoseconds (c.value j) := by
  obtain ⟨j, hj, hlast, hvalue⟩ := readCounter_moment c k
  exact ⟨j, hj, hlast, congrArg nanoseconds hvalue⟩

end IoProcessor.Tracing
