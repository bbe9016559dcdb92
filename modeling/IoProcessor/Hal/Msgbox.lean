import IoProcessor.Hal.DriverRequestQueue
import IoProcessor.Hal.MemoryMap
import IoProcessor.Library.Waiters

/-! MsgboxDriver over any bus: the driver computes register addresses and reads
and writes them, and the bus says what is there. -/
namespace IoProcessor.Hal.Msgbox
open Library MemoryMap Waiters

/-- Accesses to registers, which may have effects, and a plain store through a
pointer. -/
structure Mmio (σ : Type) where
  read : σ → Word → Word × σ
  write : σ → Word → Word → σ
  store : σ → Word → Word → σ

def directionStride : Word := 0x100
def rdIrqEn : Word := 0x20
def rdIrqStatus : Word := 0x24
def msgQueue : Word := 0x70
def rxDirection : Word := 2
def rxQueue : Word := 0

/-- The address of a register of one direction and queue. -/
def reg (base offset direction queue : Word) : Word :=
  base + offset + direction * directionStride + queue * 4

structure DoorbellRequest where
  handle : Option Coro
  message : Option Word
  deriving DecidableEq, Repr

instance : Inhabited DoorbellRequest := ⟨⟨none, none⟩⟩

inductive Event where
  | suspended (handle : Coro)
  | posted (handle : Coro) (message : Word)
  deriving DecidableEq, Repr

structure State (σ : Type) where
  pending : DriverRequestQueue DoorbellRequest
  world : σ
  trace : List Event

variable {σ : Type}

def init (io : Mmio σ) (w : σ) : σ :=
  io.write w (reg riscvMsgboxBase rdIrqEn rxDirection 0) (1#32 <<< (rxQueue * 2).toNat)

def ringDoorbellToLinux (io : Mmio σ) (w : σ) (message : Word) : σ :=
  io.write w (reg msgboxBase msgQueue 0 0) message

/-- `AsyncDoorbellAwaiter::await_suspend`, which discards the push's result. -/
def awaitSuspend (s : State σ) (h : Coro) (message : Word) : State σ :=
  { s with
    pending := (s.pending.push ⟨some h, some message⟩).2
    trace := s.trace ++ [.suspended h] }

/-- The message goes to the oldest waiter, if there is one. -/
def deliver (io : Mmio σ) (s : State σ) (msg : Word) : State σ :=
  match s.pending.pop with
  | none => s
  | some (req, pending) =>
    { pending := pending
      world := match req.message with
        | some address => io.store s.world address msg
        | none => s.world
      trace := s.trace ++ match req.handle with
        | some handle => [.posted handle msg]
        | none => [] }

def handleIsr (io : Mmio σ) (s : State σ) : State σ :=
  let status := io.read s.world (reg riscvMsgboxBase rdIrqStatus rxDirection 0)
  if status.1 = 0 then { s with world := status.2 }
  else
    let msg := io.read status.2 (reg riscvMsgboxBase msgQueue rxDirection rxQueue)
    let world := io.write msg.2 (reg riscvMsgboxBase rdIrqStatus rxDirection 0) status.1
    deliver io { s with world := world } msg.1

def waitsOf (t : List Event) : List (Wait Coro) :=
  t.map fun | .suspended h => .suspended h | .posted h _ => .posted h

/-- Every coroutine that waits is in the queue. -/
def AllQueued (s : State σ) : Prop := AllHeld (s.pending.Holds DoorbellRequest.handle) (waitsOf s.trace)

theorem awaitSuspend_allQueued {s : State σ} (hs : AllQueued s) (h : Coro) (message : Word)
    (room : s.pending.toList.length < 8) : AllQueued (awaitSuspend s h message) := by
  simp only [AllQueued, awaitSuspend, waitsOf, List.map_append]
  exact QueueSpscIsr.allHeld_push hs room rfl

theorem deliver_allQueued (io : Mmio σ) {s : State σ} (hs : AllQueued s) (msg : Word) :
    AllQueued (deliver io s msg) := by
  unfold deliver
  rcases s.pending.pop_cases with ⟨hp, -⟩ | ⟨req, q, hp, hq⟩
  · rwa [hp]
  · rw [hp]
    have h := QueueSpscIsr.allHeld_pop hs hq
    cases hh : req.handle <;> simpa [AllQueued, waitsOf, postedWait, hh] using h

theorem handleIsr_allQueued (io : Mmio σ) {s : State σ} (hs : AllQueued s) : AllQueued (handleIsr io s) := by
  unfold handleIsr
  simp only
  split
  · exact hs
  · refine deliver_allQueued io ?_ _
    exact hs

/-- The mailbox as a device of its own: the read-interrupt registers of the
receive direction, its message FIFO, what was sent to Linux, and the memory that
pointers go to. -/
structure Mailbox where
  rdIrqEn : Word
  rdIrqStatus : Word
  fifo : List Word
  sent : List Word
  ram : Memory

/-- RD_IRQ_STATUS is cleared by writing one, and a read of MSG_QUEUE pops. -/
def mailbox : Mmio Mailbox where
  read m a :=
    if a = reg riscvMsgboxBase rdIrqStatus rxDirection 0 then (m.rdIrqStatus, m)
    else if a = reg riscvMsgboxBase msgQueue rxDirection rxQueue then (m.fifo.headD 0, { m with fifo := m.fifo.tail })
    else (0, m)
  write m a v :=
    if a = reg riscvMsgboxBase rdIrqEn rxDirection 0 then { m with rdIrqEn := v }
    else if a = reg riscvMsgboxBase rdIrqStatus rxDirection 0 then { m with rdIrqStatus := m.rdIrqStatus &&& ~~~v }
    else if a = reg msgboxBase msgQueue 0 0 then { m with sent := m.sent ++ [v] }
    else m
  store m a v := { m with ram := m.ram.store32 a v }

/-- Linux may change the status and the FIFO at any time. -/
inductive Action where
  | init
  | ringDoorbellToLinux (message : Word)
  | waitForDoorbell (h : Coro) (message : Word)
  | hardware (rdIrqStatus : Word) (fifo : List Word)
  | isr
  deriving DecidableEq, Repr

def step (s : State Mailbox) : Action → State Mailbox
  | .init => { s with world := init mailbox s.world }
  | .ringDoorbellToLinux message => { s with world := ringDoorbellToLinux mailbox s.world message }
  | .waitForDoorbell h message => awaitSuspend s h message
  | .hardware rdIrqStatus fifo => { s with world.rdIrqStatus := rdIrqStatus, world.fifo := fifo }
  | .isr => handleIsr mailbox s

/-- A wait finds room in the queue. -/
def Room (s : State Mailbox) : Action → Prop
  | .waitForDoorbell _ _ => s.pending.toList.length < 8
  | _ => True

instance (s : State Mailbox) : (a : Action) → Decidable (Room s a)
  | .waitForDoorbell _ _ => inferInstanceAs (Decidable (s.pending.toList.length < 8))
  | .init | .ringDoorbellToLinux _ | .hardware _ _ | .isr => .isTrue trivial

theorem step_allQueued {s : State Mailbox} {a : Action} (hs : AllQueued s) (ha : Room s a) :
    AllQueued (step s a) := by
  cases a with
  | init => exact hs
  | ringDoorbellToLinux message => exact hs
  | waitForDoorbell h message => exact awaitSuspend_allQueued hs h message ha
  | hardware rdIrqStatus fifo => exact hs
  | isr => exact handleIsr_allQueued mailbox hs

end IoProcessor.Hal.Msgbox
