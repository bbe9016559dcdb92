import IoProcessor.Hal.DriverRequestQueue
import IoProcessor.Hal.MemoryMap
import IoProcessor.Library.Waiters

/-! The receive side of UartDmaDriver: reads are queued from the coroutine
domain and each receive interrupt fills the buffer of the oldest one. -/
namespace IoProcessor.Hal.UartDma
open Library MemoryMap Waiters

structure ReadRequest where
  handle : Option Coro
  buffer : Span
  bytesReceived : Option Word
  deriving DecidableEq, Repr

instance : Inhabited ReadRequest := ⟨⟨none, ⟨0, 0⟩, none⟩⟩

inductive Event where
  | suspended (handle : Coro)
  | flushed (bytes : List Byte)
  | received (req : ReadRequest) (bytes : List Byte)
  | posted (handle : Coro)
  deriving DecidableEq, Repr

/-- The interrupt identification register and the receive FIFO, whose fill
level is bit 0 of LSR, with the memory that buffers point into. -/
structure State where
  pendingReads : DriverRequestQueue ReadRequest
  iir : Word
  rxFifo : List Byte
  ram : Memory
  trace : List Event

/-- `AsyncReadAwaiter::await_suspend`, which discards the push's result. -/
def awaitSuspend (s : State) (h : Coro) (dest : Span) (bytesTransferred : Word) : State :=
  { s with
    pendingReads := (s.pendingReads.push ⟨some h, dest, some bytesTransferred⟩).2
    trace := s.trace ++ [.suspended h] }

/-- Reads of RBR while LSR reports data and the buffer has room. -/
def fill (s : State) (req : ReadRequest) : State :=
  let count := min s.rxFifo.length req.buffer.size.toNat
  let bytes := s.rxFifo.take count
  let ram := s.ram.store req.buffer.data bytes
  { s with
    rxFifo := s.rxFifo.drop count
    ram := match req.bytesReceived with
      | some address => ram.store32 address (BitVec.ofNat 32 count)
      | none => ram
    trace := s.trace ++ [.received req bytes] }

def post (s : State) (handle : Option Coro) : State :=
  { s with trace := s.trace ++ (handle.map Event.posted).toList }

def handleIsr (s : State) : State :=
  let iir := s.iir &&& 0x0F
  if iir = 0x04 ∨ iir = 0x0C then
    match s.pendingReads.pop with
    | none => { s with rxFifo := [], trace := s.trace ++ [.flushed s.rxFifo] }
    | some (req, pendingReads) => post (fill { s with pendingReads := pendingReads } req) req.handle
  else s

/-- The line and the controller may change both registers at any time. -/
inductive Action where
  | coAwait (h : Coro) (dest : Span) (bytesTransferred : Word)
  | hardware (iir : Word) (rxFifo : List Byte)
  | isr
  deriving DecidableEq, Repr

def step (s : State) : Action → State
  | .coAwait h dest bytesTransferred => awaitSuspend s h dest bytesTransferred
  | .hardware iir rxFifo => { s with iir := iir, rxFifo := rxFifo }
  | .isr => handleIsr s

def init (ram : Memory) : State where
  pendingReads := .init
  iir := 0x01
  rxFifo := []
  ram := ram
  trace := []

def waitsOf (t : List Event) : List (Wait Coro) :=
  t.filterMap fun | .suspended h => some (.suspended h) | .posted h => some (.posted h) | _ => none

/-- Every coroutine that waits is in the queue. -/
def AllQueued (s : State) : Prop := AllHeld (s.pendingReads.Holds ReadRequest.handle) (waitsOf s.trace)

/-- An await finds room in the queue. -/
def Room (s : State) : Action → Prop
  | .coAwait _ _ _ => s.pendingReads.toList.length < 8
  | _ => True

instance (s : State) : (a : Action) → Decidable (Room s a)
  | .coAwait _ _ _ => inferInstanceAs (Decidable (s.pendingReads.toList.length < 8))
  | .hardware _ _ | .isr => .isTrue trivial

theorem handleIsr_allQueued {s : State} (hs : AllQueued s) : AllQueued (handleIsr s) := by
  unfold handleIsr
  simp only
  split
  · rcases s.pendingReads.pop_cases with ⟨hp, -⟩ | ⟨req, q, hp, hq⟩
    · rw [hp]
      simpa [AllQueued, waitsOf] using hs
    · rw [hp]
      have h := QueueSpscIsr.allHeld_pop hs hq
      cases hh : req.handle <;> simpa [AllQueued, waitsOf, postedWait, post, fill, hh] using h
  · exact hs

theorem step_allQueued {s : State} {a : Action} (hs : AllQueued s) (ha : Room s a) : AllQueued (step s a) := by
  cases a with
  | coAwait h dest bytesTransferred =>
    have hq : AllHeld ((s.pendingReads.push ⟨some h, dest, some bytesTransferred⟩).2.Holds _) _ :=
      QueueSpscIsr.allHeld_push hs ha rfl
    simpa [AllQueued, step, awaitSuspend, waitsOf] using hq
  | hardware iir rxFifo => exact hs
  | isr => exact handleIsr_allQueued hs

end IoProcessor.Hal.UartDma
