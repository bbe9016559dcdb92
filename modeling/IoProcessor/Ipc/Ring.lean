import Mathlib.Logic.Function.Basic
import IoProcessor.Library.FreeRunning
import IoProcessor.Library.History
import IoProcessor.Library.Memory

/-! The SPSC ring of the IPC apps: the sending coroutine of the benchmark and
the receiving side of the ping responder over one SpscRingControl. Every access
to shared memory is one step, so each side works with copies that go stale. -/
namespace IoProcessor.Ipc
open Library FreeRunning History

def ringSize : Word := 128

/-- `index & RING_MASK`. -/
def ringSlot (i : Word) : Word := i &&& (ringSize - 1)

theorem ringSlot_eq (i : Word) : ringSlot i = slot 7 i := rfl

/-- `MsgType::IMU_BURST_DATA`. -/
def imuBurstData : BitVec 16 := 0x0040

structure IpcDescriptor where
  dramPayloadAddr : Word
  length : Word
  msgType : BitVec 16
  flags : BitVec 16
  timestampUs : Word
  deriving DecidableEq, Repr, Inhabited

structure SpscRingControl where
  head : Word
  tail : Word
  descriptors : Word → IpcDescriptor

/-- Where `ipc_sender_coro` stands, with its local copies. -/
inductive Producer where
  | idle
  | loadedHead (head : Word)
  | loadedTail (head tail : Word)
  | filling (head : Word) (stage : Nat)
  deriving DecidableEq, Repr

/-- Where the receiving side of `ipc_ping_responder_coro` stands. -/
inductive Consumer where
  | idle
  | loadedHead (head : Word)
  | looping (head tail : Word)
  | reading (head tail : Word) (stage : Nat) (copy : IpcDescriptor)
  deriving DecidableEq, Repr

inductive Event where
  | payloadWritten (slot : Word)
  | descriptorWritten (slot : Word)
  | produced (d : IpcDescriptor)
  | consumed (d : IpcDescriptor)
  deriving DecidableEq, Repr

structure State where
  ring : SpscRingControl
  payloads : Word → Nat → Byte
  seq : Word
  producer : Producer
  consumer : Consumer
  trace : List Event

def writePayload (s : State) (slot : Word) (i : Nat) (v : Byte) : State :=
  { s with
    payloads := Function.update s.payloads slot (Function.update (s.payloads slot) i v)
    trace := s.trace ++ [.payloadWritten slot] }

def writeDescriptor (s : State) (slot : Word) (f : IpcDescriptor → IpcDescriptor) : State :=
  { s with
    ring.descriptors := Function.update s.ring.descriptors slot (f (s.ring.descriptors slot))
    trace := s.trace ++ [.descriptorWritten slot] }

/-- `g_tx_ring.head.store(head + 1)`, which makes the slot's content a message. -/
def publish (s : State) (head : Word) : State :=
  { s with
    ring.head := head + 1
    seq := s.seq + 1
    producer := .idle
    trace := s.trace ++ [.produced (s.ring.descriptors (ringSlot head))] }

/-- The stores between the test and the publication, in order. The pool has 256
bytes for each slot; the flags are left as they are. -/
def fill (pool : Word) (timestamp : Word) (s : State) (slot : Word) : Nat → State
  | 0 => writePayload s slot 0 (s.seq.setWidth 8)
  | 1 => writePayload s slot 1 ((s.seq >>> 8).setWidth 8)
  | 2 => writeDescriptor s slot fun d => { d with dramPayloadAddr := pool + 256 * slot }
  | 3 => writeDescriptor s slot fun d => { d with length := 256 }
  | 4 => writeDescriptor s slot fun d => { d with msgType := imuBurstData }
  | _ => writeDescriptor s slot fun d => { d with timestampUs := timestamp }

/-- One access of `ipc_sender_coro`; the hardware timer gives any timestamp. -/
def producerStep (pool : Word) (s : State) (timestamp : Word) : State :=
  match s.producer with
  | .idle => { s with producer := .loadedHead s.ring.head }
  | .loadedHead head => { s with producer := .loadedTail head s.ring.tail }
  | .loadedTail head tail =>
    if head - tail < ringSize then { s with producer := .filling head 0 } else { s with producer := .idle }
  | .filling head stage =>
    if stage < 6 then { fill pool timestamp s (ringSlot head) stage with producer := .filling head (stage + 1) }
    else publish s head

/-- The fields of a descriptor, read one after the other. -/
def readField (d copy : IpcDescriptor) : Nat → IpcDescriptor
  | 0 => { copy with dramPayloadAddr := d.dramPayloadAddr }
  | 1 => { copy with length := d.length }
  | 2 => { copy with msgType := d.msgType }
  | 3 => { copy with flags := d.flags }
  | _ => { copy with timestampUs := d.timestampUs }

/-- One access of the receiver. -/
def consumerStep (s : State) : State :=
  match s.consumer with
  | .idle => { s with consumer := .loadedHead s.ring.head }
  | .loadedHead head => { s with consumer := .looping head s.ring.tail }
  | .looping head tail =>
    if tail ≠ head then { s with consumer := .reading head tail 0 default } else { s with consumer := .idle }
  | .reading head tail stage copy =>
    if stage < 5 then
      { s with consumer := .reading head tail (stage + 1) (readField (s.ring.descriptors (ringSlot tail)) copy stage) }
    else
      { s with
        ring.tail := tail + 1
        consumer := .looping head (tail + 1)
        trace := s.trace ++ [.consumed copy] }

inductive Action where
  | producer (timestamp : Word)
  | consumer
  deriving DecidableEq, Repr

def step (pool : Word) (s : State) : Action → State
  | .producer timestamp => producerStep pool s timestamp
  | .consumer => consumerStep s

/-- Both sides at the top of their loops, over an empty ring with any index and
any old content. -/
def init (start : Word) (descriptors : Word → IpcDescriptor) (payloads : Word → Nat → Byte) (seq : Word) : State where
  ring := ⟨start, start, descriptors⟩
  payloads := payloads
  seq := seq
  producer := .idle
  consumer := .idle
  trace := []

def producedOf (t : List Event) : List IpcDescriptor := t.filterMap fun | .produced d => some d | _ => none
def consumedOf (t : List Event) : List IpcDescriptor := t.filterMap fun | .consumed d => some d | _ => none

@[simp] theorem filters_nil : producedOf [] = [] ∧ consumedOf [] = [] := ⟨rfl, rfl⟩

@[simp] theorem filters_append (t u : List Event) :
    producedOf (t ++ u) = producedOf t ++ producedOf u ∧ consumedOf (t ++ u) = consumedOf t ++ consumedOf u :=
  ⟨List.filterMap_append, List.filterMap_append⟩

@[simp] theorem filters_cons (e : Event) (t : List Event) :
    producedOf (e :: t) = (match e with | .produced d => [d] | _ => []) ++ producedOf t ∧
    consumedOf (e :: t) = (match e with | .consumed d => [d] | _ => []) ++ consumedOf t := by
  cases e <;> exact ⟨rfl, rfl⟩

end IoProcessor.Ipc
