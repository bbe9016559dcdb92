import IoProcessor.Ipc.Ring

/-! The ping responder: it takes descriptors from the receive ring and puts
their echoes on the transmit ring, while Linux works at the other end of both.
Every access to shared memory is one step. -/
namespace IoProcessor.Ipc.Ping
open Library History

/-- Where `ipc_ping_responder_coro` stands, with its local copies. -/
inductive Responder where
  | polling
  | loadedRxHead (rxHead : Word)
  | looping (rxHead rxTail : Word)
  | loadedTxHead (rxHead rxTail txHead : Word)
  | loadedTxTail (rxHead rxTail txHead txTail : Word)
  | echoing (rxHead rxTail txHead : Word)
  | copying (rxHead rxTail txHead src copyLen i : Word)
  | filling (rxHead rxTail txHead : Word) (stage : Nat)
  | published (rxHead rxTail : Word)
  | releasing (rxHead rxTail : Word)
  | reporting
  deriving DecidableEq, Repr

inductive Event where
  | pinged (d : IpcDescriptor)
  | echoed (d : IpcDescriptor)
  | doorbell (value : Word)
  | released (d : IpcDescriptor)
  | answered (d : IpcDescriptor)
  | reported (count : Word)
  deriving DecidableEq, Repr

structure State where
  rx : SpscRingControl
  tx : SpscRingControl
  ram : Memory
  responder : Responder
  echoCount : Word
  trace : List Event

/-- The stores to the descriptor of the echo, in order. -/
def fillEcho (pool timestamp slot : Word) (inDesc outDesc : IpcDescriptor) : Nat → IpcDescriptor
  | 0 => { outDesc with dramPayloadAddr := pool + 256 * slot }
  | 1 => { outDesc with length := inDesc.length }
  | 2 => { outDesc with msgType := inDesc.msgType }
  | 3 => { outDesc with flags := inDesc.flags ||| 0x8000 }
  | _ => { outDesc with timestampUs := timestamp }

/-- One access of the responder; `pool` is the address of `g_dram_echo_pool` and
the hardware timer gives any timestamp. -/
def respond (pool timestamp : Word) (s : State) : State :=
  match s.responder with
  | .polling => { s with responder := .loadedRxHead s.rx.head }
  | .loadedRxHead rxHead => { s with responder := .looping rxHead s.rx.tail }
  | .looping rxHead rxTail =>
    if rxTail ≠ rxHead then { s with responder := .loadedTxHead rxHead rxTail s.tx.head }
    else { s with responder := .reporting }
  | .loadedTxHead rxHead rxTail txHead => { s with responder := .loadedTxTail rxHead rxTail txHead s.tx.tail }
  | .loadedTxTail rxHead rxTail txHead txTail =>
    if txHead - txTail < ringSize then { s with responder := .echoing rxHead rxTail txHead }
    else { s with responder := .releasing rxHead rxTail }
  | .echoing rxHead rxTail txHead =>
    let inDesc := s.rx.descriptors (ringSlot rxTail)
    if inDesc.dramPayloadAddr ≠ 0 ∧ inDesc.length > 0 then
      let copyLen := if inDesc.length > 256 then 256 else inDesc.length
      { s with responder := .copying rxHead rxTail txHead inDesc.dramPayloadAddr copyLen 0 }
    else { s with responder := .filling rxHead rxTail txHead 0 }
  | .copying rxHead rxTail txHead src copyLen i =>
    if i < copyLen then
      { s with
        ram := s.ram.store8 (pool + 256 * ringSlot txHead + i) (s.ram (src + i))
        responder := .copying rxHead rxTail txHead src copyLen (i + 1) }
    else { s with responder := .filling rxHead rxTail txHead 0 }
  | .filling rxHead rxTail txHead stage =>
    let slot := ringSlot txHead
    if stage < 5 then
      let outDesc := fillEcho pool timestamp slot (s.rx.descriptors (ringSlot rxTail)) (s.tx.descriptors slot) stage
      { s with
        tx.descriptors := Function.update s.tx.descriptors slot outDesc
        responder := .filling rxHead rxTail txHead (stage + 1) }
    else
      { s with
        tx.head := txHead + 1
        responder := .published rxHead rxTail
        trace := s.trace ++ [.echoed (s.tx.descriptors slot)] }
  | .published rxHead rxTail =>
    { s with
      responder := .releasing rxHead rxTail
      echoCount := s.echoCount + 1
      trace := s.trace ++ [.doorbell 1] }
  | .releasing rxHead rxTail =>
    { s with
      rx.tail := rxTail + 1
      responder := .looping rxHead (rxTail + 1)
      trace := s.trace ++ [.released (s.rx.descriptors (ringSlot rxTail))] }
  | .reporting =>
    if s.echoCount % 10 = 0 ∧ s.echoCount ≠ 0 then
      { s with responder := .polling, trace := s.trace ++ [.reported s.echoCount] }
    else { s with responder := .polling }

/-- Linux at its ends of the rings: it writes to the slot under the head of the
receive ring and publishes it while there is room, and takes echoes from the
transmit ring. Its memory is its own to write. -/
inductive Action where
  | respond (timestamp : Word)
  | fillPing (d : IpcDescriptor)
  | publishPing
  | takeEcho
  | storeByte (a : Word) (v : Byte)
  deriving DecidableEq, Repr

def step (pool : Word) (s : State) : Action → State
  | .respond timestamp => respond pool timestamp s
  | .fillPing d =>
    if s.rx.head - s.rx.tail < ringSize then
      { s with rx.descriptors := Function.update s.rx.descriptors (ringSlot s.rx.head) d }
    else s
  | .publishPing =>
    if s.rx.head - s.rx.tail < ringSize then
      { s with
        rx.head := s.rx.head + 1
        trace := s.trace ++ [.pinged (s.rx.descriptors (ringSlot s.rx.head))] }
    else s
  | .takeEcho =>
    if s.tx.tail ≠ s.tx.head then
      { s with
        tx.tail := s.tx.tail + 1
        trace := s.trace ++ [.answered (s.tx.descriptors (ringSlot s.tx.tail))] }
    else s
  | .storeByte a v => { s with ram := s.ram.store8 a v }

/-- Both rings empty, with any indices and any old content. -/
def init (rxStart txStart : Word) (rxOld txOld : Word → IpcDescriptor) (ram : Memory) : State where
  rx := ⟨rxStart, rxStart, rxOld⟩
  tx := ⟨txStart, txStart, txOld⟩
  ram := ram
  responder := .polling
  echoCount := 0
  trace := []

def pingedOf (t : List Event) : List IpcDescriptor := t.filterMap fun | .pinged d => some d | _ => none
def echoedOf (t : List Event) : List IpcDescriptor := t.filterMap fun | .echoed d => some d | _ => none
def releasedOf (t : List Event) : List IpcDescriptor := t.filterMap fun | .released d => some d | _ => none
def answeredOf (t : List Event) : List IpcDescriptor := t.filterMap fun | .answered d => some d | _ => none

@[simp] theorem filters_nil : pingedOf [] = [] ∧ echoedOf [] = [] ∧ releasedOf [] = [] ∧ answeredOf [] = [] :=
  ⟨rfl, rfl, rfl, rfl⟩

@[simp] theorem filters_append (t u : List Event) :
    pingedOf (t ++ u) = pingedOf t ++ pingedOf u ∧ echoedOf (t ++ u) = echoedOf t ++ echoedOf u ∧
      releasedOf (t ++ u) = releasedOf t ++ releasedOf u ∧ answeredOf (t ++ u) = answeredOf t ++ answeredOf u :=
  ⟨List.filterMap_append, List.filterMap_append, List.filterMap_append, List.filterMap_append⟩

@[simp] theorem filters_cons (e : Event) (t : List Event) :
    pingedOf (e :: t) = (match e with | .pinged d => [d] | _ => []) ++ pingedOf t ∧
    echoedOf (e :: t) = (match e with | .echoed d => [d] | _ => []) ++ echoedOf t ∧
    releasedOf (e :: t) = (match e with | .released d => [d] | _ => []) ++ releasedOf t ∧
    answeredOf (e :: t) = (match e with | .answered d => [d] | _ => []) ++ answeredOf t := by
  cases e <;> exact ⟨rfl, rfl, rfl, rfl⟩

end IoProcessor.Ipc.Ping
