import Mathlib.Logic.Function.Basic
import IoProcessor.Hal.DriverRequestQueue
import IoProcessor.Hal.MemoryMap
import IoProcessor.Library.History

/-! SpiDmaDriver: two driver instances in front of memory-mapped controllers.
The functions between masked interrupts and the interrupt handlers are single
steps; `await_suspend` is two, since an interrupt may land after the push. -/
namespace IoProcessor.Hal.SpiDma
open Library MemoryMap

structure TransferRequest where
  spiBase : Word
  handle : Option Coro
  txData : Span
  rxData : Span
  deriving DecidableEq, Repr

instance : Inhabited TransferRequest := ⟨⟨0, none, ⟨0, 0⟩, ⟨0, 0⟩⟩⟩

/-- A byte in a receive FIFO, with the number of the exchange that brought it. -/
structure Received where
  exchange : Nat
  value : Byte
  deriving DecidableEq, Repr

/-- The registers of one controller that the transfer path touches, its two
FIFOs, and the number of exchanges it has been told to run. -/
structure Controller where
  mbc : Word
  mtc : Word
  bcc : Word
  tcr : Word
  isr : Word
  txFifo : List Byte
  rxFifo : List Received
  exchanges : Nat

def tcFlag : Word := 1#32 <<< 12
def xchFlag : Word := 1#32 <<< 31

namespace Controller

/-- The interrupt-status TC bit. -/
def tc (c : Controller) : Bool := c.isr.getLsbD 12

/-- A write to the interrupt-status register clears the bits that are set in it. -/
def writeIsr (c : Controller) (v : Word) : Controller := { c with isr := c.isr &&& ~~~v }

/-- Each read of RXD pops one byte; an empty FIFO yields a byte of no exchange. -/
def readRxd (c : Controller) : Received × Controller :=
  (c.rxFifo.headD ⟨0, 0⟩, { c with rxFifo := c.rxFifo.tail })

def drain : Nat → Controller → List Received × Controller
  | 0, c => ([], c)
  | n+1, c =>
    let first := c.readRxd
    let rest := drain n first.2
    (first.1 :: rest.1, rest.2)

/-- `start_transfer` on the registers of one base. -/
def startTransfer (c : Controller) (ram : Memory) (tx : Span) (rxLen : Word) : Controller :=
  let totalLen := if tx.size > rxLen then tx.size else rxLen
  { c with
    mbc := totalLen
    mtc := tx.size
    bcc := 0
    txFifo := c.txFifo ++ ram.read tx
    tcr := c.tcr ||| xchFlag
    exchanges := c.exchanges + 1 }

/-- The controller finishes its exchange: one byte received for each burst. -/
def finishExchange (c : Controller) (bytes : List Byte) : Controller :=
  { c with
    tcr := c.tcr &&& ~~~xchFlag
    isr := c.isr ||| tcFlag
    txFifo := []
    rxFifo := c.rxFifo ++ bytes.map (Received.mk c.exchanges) }

/-- After reset and `init`: nothing pending, both FIFOs empty. -/
def initial : Controller := ⟨0, 0, 0, 1#32 <<< 2, 0, [], [], 0⟩

@[simp] theorem tc_writeIsr (c : Controller) : (c.writeIsr tcFlag).tc = false := by
  simp [tc, writeIsr, tcFlag]

@[simp] theorem tc_startTransfer (c : Controller) (ram : Memory) (tx : Span) (n : Word) :
    (c.startTransfer ram tx n).tc = c.tc := rfl

@[simp] theorem tc_finishExchange (c : Controller) (bytes : List Byte) :
    (c.finishExchange bytes).tc = true := by
  simp [tc, finishExchange, tcFlag]

@[simp] theorem drain_length (n : Nat) (c : Controller) : (c.drain n).1.length = n := by
  induction n generalizing c with
  | zero => rfl
  | succ n ih => simp [drain, ih]

theorem drain_snd (n : Nat) (c : Controller) :
    (c.drain n).2 = { c with rxFifo := c.rxFifo.drop n } := by
  induction n generalizing c with
  | zero => rfl
  | succ n ih => simp [drain, ih, readRxd]

theorem drain_fst {n : Nat} {c : Controller} (h : n ≤ c.rxFifo.length) :
    (c.drain n).1 = c.rxFifo.take n := by
  induction n generalizing c with
  | zero => rfl
  | succ n ih =>
    cases hf : c.rxFifo with
    | nil => simp [hf] at h
    | cons b bs =>
      have hn : n ≤ c.readRxd.2.rxFifo.length := by simpa [readRxd, hf] using h
      simp only [drain, ih hn]
      simp [readRxd, hf]

@[simp] theorem tc_drain (n : Nat) (c : Controller) : (c.drain n).2.tc = c.tc := by
  rw [drain_snd]
  rfl

end Controller

/-- The two sets of static members. -/
inductive Instance where
  | spi0 | spi1
  deriving DecidableEq, Repr

def Instance.base : Instance → Word
  | .spi0 => spi0Base
  | .spi1 => spi1Base

/-- The selection made by `queue_for`, `active_request_for` and `busy_for`. -/
def instanceFor (base : Word) : Instance := if base = spi0Base then .spi0 else .spi1

@[simp] theorem instanceFor_base (i : Instance) : instanceFor i.base = i := by
  cases i <;> decide

theorem Instance.base_injective {i j : Instance} (h : i.base = j.base) : i = j := by
  rw [← instanceFor_base i, h, instanceFor_base]

/-- What happened, in order. A start records what the receive FIFO held, and a
stored event what was put into the request's receive buffer. -/
inductive Event where
  | suspended (base : Word) (handle : Coro)
  | pushed (base : Word) (req : TransferRequest)
  | started (base : Word) (req : TransferRequest) (leftover : List Received)
  | completed (base : Word) (req : TransferRequest)
  | stored (base : Word) (req : TransferRequest) (bytes : List Received)
  | posted (base : Word) (req : TransferRequest) (handle : Coro)
  deriving DecidableEq, Repr

/-- `wire` names the request whose exchange a controller was told to run and
has not been acknowledged; `suspending` is the base of an `await_suspend` that
has pushed and not yet tried to start. Neither is stored by the program. -/
structure State where
  pending : Instance → DriverRequestQueue TransferRequest
  active : Instance → TransferRequest
  busy : Instance → Bool
  regs : Word → Controller
  ram : Memory
  wire : Word → Option TransferRequest
  suspending : Option Word
  trace : List Event

def queueTransferRequest (s : State) (base : Word) (handle : Option Coro) (tx rx : Span) : Bool × State :=
  let pushed := (s.pending (instanceFor base)).push ⟨base, handle, tx, rx⟩
  (pushed.1, { s with pending := Function.update s.pending (instanceFor base) pushed.2 })

def popTransferRequest (s : State) (base : Word) : Option (TransferRequest × State) :=
  ((s.pending (instanceFor base)).pop).map fun popped =>
    (popped.1, { s with pending := Function.update s.pending (instanceFor base) popped.2 })

/-- `busy = true`, the new active request, and `start_transfer` for it. -/
def launch (s : State) (base : Word) (req : TransferRequest) : State :=
  { s with
    busy := Function.update s.busy (instanceFor base) true
    active := Function.update s.active (instanceFor base) req
    regs := Function.update s.regs base
      ((s.regs base).startTransfer s.ram req.txData req.rxData.size)
    wire := Function.update s.wire base (some req)
    trace := s.trace ++ [.started base req (s.regs base).rxFifo] }

def tryStartNextTransfer (s : State) (base : Word) : State :=
  if s.busy (instanceFor base) then s
  else match popTransferRequest s base with
    | some (req, s) => launch s base req
    | none => s

/-- `IsrDispatcher::post`, which accepts every non-null handle. -/
def post (s : State) (base : Word) (req : TransferRequest) : State :=
  match req.handle with
  | some handle => { s with trace := s.trace ++ [.posted base req handle] }
  | none => s

/-- Acknowledge TC, then fill the active request's receive buffer from RXD. -/
def receive (s : State) (base : Word) : State :=
  let req := s.active (instanceFor base)
  let drained := ((s.regs base).writeIsr tcFlag).drain req.rxData.size.toNat
  { s with
    regs := Function.update s.regs base drained.2
    wire := if (s.regs base).tc then Function.update s.wire base none else s.wire
    ram := s.ram.store req.rxData.data (drained.1.map Received.value)
    trace := s.trace ++ [.stored base req drained.1] }

def startNextOrIdle (s : State) (base : Word) : State :=
  match popTransferRequest s base with
  | some (next, s) => launch s base next
  | none =>
    { s with
      busy := Function.update s.busy (instanceFor base) false
      active := Function.update s.active (instanceFor base) default }

def completeTransferFromIsr (s : State) (base : Word) : State :=
  post (startNextOrIdle (receive s base) base) base (s.active (instanceFor base))

def handleSpi0Isr (s : State) : State := completeTransferFromIsr s spi0Base
def handleSpi1Isr (s : State) : State := completeTransferFromIsr s spi1Base

/-- `AsyncTransferAwaiter::await_ready`. -/
def awaitReady (tx rx : Span) : Bool := tx.size == 0 && rx.size == 0

/-- `await_suspend` up to the push, whose result it discards. -/
def awaitSuspendPush (s : State) (base : Word) (h : Coro) (tx rx : Span) : State :=
  let queued := queueTransferRequest s base (some h) tx rx
  { queued.2 with
    suspending := some base
    trace := s.trace ++ .suspended base h ::
      (if queued.1 then [.pushed base ⟨base, some h, tx, rx⟩] else []) }

inductive Action where
  | coAwait (base : Word) (h : Coro) (tx rx : Span)
  | start
  | exchange (base : Word) (bytes : List Byte)
  | isr (i : Instance)
  deriving DecidableEq, Repr

/-- The coroutine domain runs one `await_suspend` at a time; an exchange ends
only while one is running, with as many bytes as MBC has bursts. -/
def step (s : State) : Action → State
  | .coAwait base h tx rx =>
    if s.suspending = none ∧ awaitReady tx rx = false then awaitSuspendPush s base h tx rx else s
  | .start =>
    match s.suspending with
    | some base => { tryStartNextTransfer s base with suspending := none }
    | none => s
  | .exchange base bytes =>
    match s.wire base with
    | some req =>
      if (s.regs base).tc = false ∧ bytes.length = (s.regs base).mbc.toNat then
        { s with
          regs := Function.update s.regs base ((s.regs base).finishExchange bytes)
          trace := s.trace ++ [.completed base req] }
      else s
    | none => s
  | .isr .spi0 => handleSpi0Isr s
  | .isr .spi1 => handleSpi1Isr s

def init (ram : Memory) : State where
  pending _ := .init
  active _ := default
  busy _ := false
  regs _ := .initial
  ram := ram
  wire _ := none
  suspending := none
  trace := []

abbrev run (ram : Memory) (acts : List Action) : State := History.run step (init ram) acts

def Event.base : Event → Word
  | .suspended b _ | .pushed b _ | .started b _ _ | .completed b _ | .stored b _ _ | .posted b _ _ => b

/-- The events of one bus. -/
def historyOf (base : Word) (t : List Event) : List Event := t.filter (fun e => e.base = base)

def pushedOf (t : List Event) : List TransferRequest :=
  t.filterMap fun | .pushed _ r => some r | _ => none

def startedOf (t : List Event) : List TransferRequest :=
  t.filterMap fun | .started _ r _ => some r | _ => none

def completedOf (t : List Event) : List TransferRequest :=
  t.filterMap fun | .completed _ r => some r | _ => none

def storedOf (t : List Event) : List TransferRequest :=
  t.filterMap fun | .stored _ r _ => some r | _ => none

def postedOf (t : List Event) : List TransferRequest :=
  t.filterMap fun | .posted _ r _ => some r | _ => none

def handlesOf (t : List Event) : List Coro :=
  t.filterMap fun | .posted _ _ h => some h | _ => none

@[simp] theorem filters_append (t u : List Event) :
    pushedOf (t ++ u) = pushedOf t ++ pushedOf u ∧ startedOf (t ++ u) = startedOf t ++ startedOf u ∧
    completedOf (t ++ u) = completedOf t ++ completedOf u ∧ storedOf (t ++ u) = storedOf t ++ storedOf u ∧
    postedOf (t ++ u) = postedOf t ++ postedOf u ∧ handlesOf (t ++ u) = handlesOf t ++ handlesOf u :=
  ⟨List.filterMap_append, List.filterMap_append, List.filterMap_append, List.filterMap_append,
    List.filterMap_append, List.filterMap_append⟩

@[simp] theorem filters_nil : pushedOf [] = [] ∧ startedOf [] = [] ∧ completedOf [] = [] ∧ storedOf [] = [] ∧
    postedOf [] = [] ∧ handlesOf [] = [] := ⟨rfl, rfl, rfl, rfl, rfl, rfl⟩

@[simp] theorem filters_cons (e : Event) (t : List Event) :
    pushedOf (e :: t) = (match e with | .pushed _ r => [r] | _ => []) ++ pushedOf t ∧
    startedOf (e :: t) = (match e with | .started _ r _ => [r] | _ => []) ++ startedOf t ∧
    completedOf (e :: t) = (match e with | .completed _ r => [r] | _ => []) ++ completedOf t ∧
    storedOf (e :: t) = (match e with | .stored _ r _ => [r] | _ => []) ++ storedOf t ∧
    postedOf (e :: t) = (match e with | .posted _ r _ => [r] | _ => []) ++ postedOf t ∧
    handlesOf (e :: t) = (match e with | .posted _ _ h => [h] | _ => []) ++ handlesOf t := by
  cases e <;> exact ⟨rfl, rfl, rfl, rfl, rfl, rfl⟩

end IoProcessor.Hal.SpiDma
