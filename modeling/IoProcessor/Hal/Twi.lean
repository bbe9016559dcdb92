import Mathlib.Logic.Function.Basic
import IoProcessor.Hal.DriverRequestQueue
import IoProcessor.Hal.MemoryMap
import IoProcessor.Library.History

/-! TwiDriver: three queues and transfer states in front of the MCU-domain
controllers. `start_transfer` runs with interrupts enabled, so each of its
accesses to shared state is a step; a handler call is one step. -/
namespace IoProcessor.Hal.Twi
open Library MemoryMap

inductive TwiResult where
  | pending | ok | nack | busError
  deriving DecidableEq, Repr

def TwiResult.toByte : TwiResult → Byte
  | .pending => 0 | .ok => 1 | .nack => 2 | .busError => 3

/-- The ticket is not stored by the program: it tells requests of equal content
apart. -/
structure TwiRequest where
  handle : Option Coro
  buffer : Word
  length : BitVec 16
  address : Byte
  regAddr : Byte
  isRead : Bool
  result : Option Word
  ticket : Nat
  deriving DecidableEq, Repr

instance : Inhabited TwiRequest := ⟨⟨none, 0, 0, 0, 0, false, none, 0⟩⟩

/-- The copy of a request, word by word: length and both addresses share a word,
and the ticket goes with the last. -/
def TwiRequest.wordStores (req : TwiRequest) : List (TwiRequest → TwiRequest) :=
  [fun r => { r with handle := req.handle },
    fun r => { r with buffer := req.buffer },
    fun r => { r with length := req.length, address := req.address, regAddr := req.regAddr },
    fun r => { r with isRead := req.isRead },
    fun r => { r with result := req.result, ticket := req.ticket }]

structure TwiTransferState where
  request : TwiRequest
  index : BitVec 16
  address : Byte
  regAddr : Byte
  sentRegAddr : Bool
  phaseIsRead : Bool
  active : Bool
  deriving DecidableEq, Repr

instance : Inhabited TwiTransferState := ⟨⟨default, 0, 0, 0, false, false, false⟩⟩

def cntrAck : Word := 1#32 <<< 2
def cntrIntFlag : Word := 1#32 <<< 3
def cntrMStp : Word := 1#32 <<< 4
def cntrMSta : Word := 1#32 <<< 5
def cntrBusEn : Word := 1#32 <<< 6
def cntrIntEn : Word := 1#32 <<< 7

def statBusError : Word := 0x00
def statStart : Word := 0x08
def statRepeatStart : Word := 0x10
def statAddrWAck : Word := 0x18
def statDataTxAck : Word := 0x28
def statAddrRAck : Word := 0x40
def statDataRxAck : Word := 0x50
def statDataRxNack : Word := 0x58
def statIdle : Word := 0xF8

inductive Register where
  | data | cntr
  deriving DecidableEq, Repr

/-- The registers of one controller that the master state machine uses, and
the writes made to them so far. -/
structure Regs where
  cntr : Word
  stat : Word
  data : Word
  writes : List (Register × Word)
  deriving DecidableEq, Repr

/-- INT_FLAG is cleared by writing one and kept by writing zero. -/
def Regs.writeCntr (r : Regs) (v : Word) : Regs :=
  { r with
    cntr := (v &&& ~~~cntrIntFlag) ||| (r.cntr &&& cntrIntFlag &&& ~~~v)
    writes := r.writes ++ [(.cntr, v)] }

def Regs.writeData (r : Regs) (v : Word) : Regs :=
  { r with data := v, writes := r.writes ++ [(.data, v)] }

/-- What happened on one bus, in order. -/
inductive Event where
  | suspended (handle : Coro)
  | pushed (req : TwiRequest)
  | begun (req : TwiRequest)
  | bufferRead (req : TwiRequest) (index : Nat)
  | bufferWritten (req : TwiRequest) (index : Nat)
  | finished (req : TwiRequest) (result : TwiResult)
  | resultWritten (req : TwiRequest) (result : TwiResult)
  | posted (req : TwiRequest) (handle : Coro)
  deriving DecidableEq, Repr

/-- One bus as the handler sees it. -/
structure Device where
  queue : DriverRequestQueue TwiRequest
  state : TwiTransferState
  history : List Event
  regs : Regs
  ram : Memory

namespace Device

def orCntr (d : Device) (bits : Word) : Device :=
  { d with regs := d.regs.writeCntr (d.regs.cntr ||| bits) }

/-- The stores of `begin`, in order. -/
def beginStores (req : TwiRequest) : List (Device → Device) :=
  (req.wordStores.map fun store d => { d with state.request := store d.state.request }) ++
  [fun d => { d with state.index := 0 },
    fun d => { d with state.address := req.address },
    fun d => { d with state.regAddr := req.regAddr },
    fun d => { d with state.sentRegAddr := false },
    fun d => { d with state.phaseIsRead := false },
    fun d => { d with state.active := true, history := d.history ++ [.begun req] },
    fun d => d.orCntr cntrMSta]

def begin (d : Device) (req : TwiRequest) : Device := (beginStores req).foldl (fun d store => store d) d

/-- `*state.request.result = result`, unless the pointer is null. -/
def writeResult (d : Device) (result : TwiResult) : Device :=
  match d.state.request.result with
  | some address =>
    { d with
      ram := d.ram.store8 address result.toByte
      history := d.history ++ [.resultWritten d.state.request result] }
  | none => d

/-- `IsrDispatcher::post`, which accepts every non-null handle. -/
def post (d : Device) (req : TwiRequest) : Device :=
  match req.handle with
  | some handle => { d with history := d.history ++ [.posted req handle] }
  | none => d

def beginNext (d : Device) : Device :=
  match d.queue.pop with
  | some (next, queue) => begin { d with queue := queue } next
  | none => d

def finish (d : Device) (result : TwiResult) : Device :=
  let req := d.state.request
  let d := (d.orCntr cntrMStp).orCntr cntrIntFlag
  let d := writeResult { d with history := d.history ++ [.finished req result] } result
  beginNext (post { d with state.active := false } req)

def writeNextByte (d : Device) : Device :=
  if d.state.index ≥ d.state.request.length then finish d .ok
  else
    { d with
      regs := d.regs.writeData ((d.ram (d.state.request.buffer + d.state.index.setWidth 32)).setWidth 32)
      state.index := d.state.index + 1
      history := d.history ++ [.bufferRead d.state.request d.state.index.toNat] }

/-- The store of `read_next_byte`. -/
def storeByte (d : Device) : Device :=
  if d.state.index < d.state.request.length then
    { d with
      ram := d.ram.store8 (d.state.request.buffer + d.state.index.setWidth 32) (d.regs.data.setWidth 8)
      state.index := d.state.index + 1
      history := d.history ++ [.bufferWritten d.state.request d.state.index.toNat] }
  else d

def readNextByte (d : Device) : Device :=
  let d := d.storeByte
  if d.state.index.toNat + 1 ≥ d.state.request.length.toNat then
    { d with regs := d.regs.writeCntr (d.regs.cntr &&& ~~~cntrAck) }
  else d

def handleIsr (d : Device) : Device :=
  if d.regs.cntr &&& cntrIntFlag = 0 then d
  else if d.regs.stat = statStart ∨ d.regs.stat = statRepeatStart then
    let data := (d.state.address.setWidth 32 <<< 1) ||| (if d.state.phaseIsRead then 1 else 0)
    { d with regs := d.regs.writeData data }.orCntr cntrIntFlag
  else if d.regs.stat = statAddrWAck then
    let d := if d.state.sentRegAddr then d.writeNextByte
      else { d with regs := d.regs.writeData (d.state.regAddr.setWidth 32), state.sentRegAddr := true }
    d.orCntr cntrIntFlag
  else if d.regs.stat = statDataTxAck then
    let d := if d.state.request.isRead ∧ d.state.sentRegAddr ∧ d.state.index = 0 then
        { d with state.phaseIsRead := true }.orCntr cntrMSta
      else d.writeNextByte
    d.orCntr cntrIntFlag
  else if d.regs.stat = statAddrRAck then (d.orCntr cntrAck).orCntr cntrIntFlag
  else if d.regs.stat = statDataRxAck then d.readNextByte.orCntr cntrIntFlag
  else if d.regs.stat = statDataRxNack then d.readNextByte.finish .ok
  else if d.regs.stat = statBusError then d.finish .busError
  else d.finish .nack

end Device

/-- The three sets of static members. -/
inductive Bus where
  | twi0 | twi1 | twi2
  deriving DecidableEq, Repr

def Bus.base : Bus → Word
  | .twi0 => sTwi0Base | .twi1 => sTwi1Base | .twi2 => sTwi2Base

/-- The selection made by `queue_for` and `state_for`. -/
def busFor (base : Word) : Bus :=
  if base = sTwi0Base then .twi0 else if base = sTwi1Base then .twi1 else .twi2

@[simp] theorem busFor_base (b : Bus) : busFor b.base = b := by
  cases b <;> decide

/-- Where the coroutine domain stands in `await_suspend`. -/
inductive Pc where
  | outside
  | pushed (base : Word)
  | tested (base : Word)
  | beginning (base : Word) (req : TwiRequest) (stage : Nat)
  deriving DecidableEq, Repr

structure State where
  queue : Bus → DriverRequestQueue TwiRequest
  state : Bus → TwiTransferState
  history : Bus → List Event
  regs : Word → Regs
  ram : Memory
  pc : Pc

/-- What code working on a base address sees, and the effect of its work. -/
def device (s : State) (base : Word) : Device :=
  ⟨s.queue (busFor base), s.state (busFor base), s.history (busFor base), s.regs base, s.ram⟩

def commit (s : State) (base : Word) (d : Device) : State where
  queue := Function.update s.queue (busFor base) d.queue
  state := Function.update s.state (busFor base) d.state
  history := Function.update s.history (busFor base) d.history
  regs := Function.update s.regs base d.regs
  ram := d.ram
  pc := s.pc

def handleIsr (s : State) (base : Word) : State := commit s base (device s base).handleIsr

/-- The request that `async_read` and `async_write` put into their awaiter. -/
def awaiterRequest (address regAddr : Byte) (isRead : Bool) (span : Span) : TwiRequest :=
  { (default : TwiRequest) with
    address := address
    regAddr := regAddr
    buffer := span.data
    length := span.size.setWidth 16
    isRead := isRead }

def asyncRead (address regAddr : Byte) (dest : Span) : TwiRequest := awaiterRequest address regAddr true dest
def asyncWrite (address regAddr : Byte) (src : Span) : TwiRequest := awaiterRequest address regAddr false src

def pushedOf (t : List Event) : List TwiRequest := t.filterMap fun | .pushed r => some r | _ => none
def begunOf (t : List Event) : List TwiRequest := t.filterMap fun | .begun r => some r | _ => none
def finishedOf (t : List Event) : List TwiRequest := t.filterMap fun | .finished r _ => some r | _ => none
def resultsOf (t : List Event) : List TwiRequest := t.filterMap fun | .resultWritten r _ => some r | _ => none
def postedOf (t : List Event) : List TwiRequest := t.filterMap fun | .posted r _ => some r | _ => none
def handlesOf (t : List Event) : List Coro := t.filterMap fun | .posted _ h => some h | _ => none

/-- `await_suspend` up to the push, whose result it discards. The awaiter's own
result starts as Pending, and the request points at it. -/
def awaitSuspendPush (s : State) (base : Word) (h : Coro) (request : TwiRequest) (result : Word) : State :=
  let t := s.history (busFor base)
  let req := { request with handle := some h, result := some result, ticket := (pushedOf t).length + 1 }
  let queued := (s.queue (busFor base)).push req
  { s with
    queue := Function.update s.queue (busFor base) queued.2
    history := Function.update s.history (busFor base)
      (t ++ .suspended h :: if queued.1 then [.pushed req] else [])
    ram := s.ram.store8 result TwiResult.pending.toByte
    pc := .pushed base }

/-- The next step of `start_transfer`, which runs with interrupts enabled. -/
def startTransferStep (s : State) : State :=
  match s.pc with
  | .outside => s
  | .pushed base => { s with pc := if (s.state (busFor base)).active then .outside else .tested base }
  | .tested base =>
    match (s.queue (busFor base)).pop with
    | some (req, queue) =>
      { s with queue := Function.update s.queue (busFor base) queue, pc := .beginning base req 0 }
    | none => { s with pc := .outside }
  | .beginning base req stage =>
    match (Device.beginStores req)[stage]? with
    | some store =>
      { commit s base (store (device s base)) with
        pc := if stage + 1 < (Device.beginStores req).length then .beginning base req (stage + 1) else .outside }
    | none => { s with pc := .outside }

/-- An await enters `await_suspend`, `proceed` is its next step; the controller
may set its registers to anything between two steps. -/
inductive Action where
  | coAwaitRead (base : Word) (h : Coro) (address regAddr : Byte) (dest : Span) (result : Word)
  | coAwaitWrite (base : Word) (h : Coro) (address regAddr : Byte) (src : Span) (result : Word)
  | proceed
  | hardware (base : Word) (cntr stat data : Word)
  | isr (b : Bus)
  deriving DecidableEq, Repr

def step (s : State) : Action → State
  | .coAwaitRead base h address regAddr dest result =>
    if s.pc = .outside then awaitSuspendPush s base h (asyncRead address regAddr dest) result else s
  | .coAwaitWrite base h address regAddr src result =>
    if s.pc = .outside then awaitSuspendPush s base h (asyncWrite address regAddr src) result else s
  | .proceed => startTransferStep s
  | .hardware base cntr stat data =>
    { s with regs := Function.update s.regs base { s.regs base with cntr := cntr, stat := stat, data := data } }
  | .isr b => handleIsr s b.base

/-- After `init`, with `CNTR = BUS_EN | INT_EN`. -/
def init (ram : Memory) : State where
  queue _ := .init
  state _ := default
  history _ := []
  regs _ := ⟨cntrBusEn ||| cntrIntEn, statIdle, 0, []⟩
  ram := ram
  pc := .outside

abbrev run (ram : Memory) (acts : List Action) : State := History.run step (init ram) acts

end IoProcessor.Hal.Twi
