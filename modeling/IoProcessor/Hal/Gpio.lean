import Mathlib.Logic.Function.Basic
import IoProcessor.Hal.DriverRequestQueue
import IoProcessor.Hal.MemoryMap
import IoProcessor.Library.Waiters

/-! The interrupt side of Gpio: pin waiters, the table of pin handlers and the
interrupt registers of the banks. Sections between masked interrupts are steps
of their own, so an interrupt may land between two of them. -/
namespace IoProcessor.Hal.Gpio
open Library MemoryMap Waiters

def portL : Word := 16
def portM : Word := 17

structure PinEventRequest where
  handle : Option Coro
  port : Word
  pin : Word
  deriving DecidableEq, Repr

instance : Inhabited PinEventRequest := ⟨⟨none, 0, 0⟩⟩

inductive IntTrigger where
  | risingEdge | fallingEdge | highLevel | lowLevel | bothEdges
  deriving DecidableEq, Repr

def IntTrigger.toWord : IntTrigger → Word
  | .risingEdge => 0 | .fallingEdge => 1 | .highLevel => 2 | .lowLevel => 3 | .bothEdges => 4

/-- A slot of the handler table; the callback and its context are opaque. -/
structure PinHandler where
  callback : Option Nat
  context : Nat
  port : Word
  pin : Word
  deriving DecidableEq, Repr

instance : Inhabited PinHandler := ⟨⟨none, 0, 0, 0⟩⟩

def maxPinHandlers : Nat := 8

/-- The interrupt registers of one bank. Its pins are 0 to 31 and their
configurations four words; larger pins, with which the source indexes other
registers, are out of scope. -/
structure IntRegs where
  cfg : Word → Word
  ctl : Word
  status : Word

/-- STATUS is cleared by writing one. -/
def IntRegs.writeStatus (r : IntRegs) (v : Word) : IntRegs := { r with status := r.status &&& ~~~v }

inductive Event where
  | suspended (handle : Coro)
  | called (callback context : Nat) (port pin : Word)
  | posted (handle : Coro)
  deriving DecidableEq, Repr

/-- Where the coroutine domain stands between two masked sections. -/
inductive Pc where
  | outside
  | enabling (port pin : Word) (trigger : IntTrigger)
  | clearing (port pin : Word)
  deriving DecidableEq, Repr

structure State where
  pending : DriverRequestQueue PinEventRequest
  handlers : List PinHandler
  regs : Word → IntRegs
  pc : Pc
  trace : List Event

/-- The address of a bank's interrupt registers. -/
def intRegsAddr (port : Word) : Word :=
  let base := if port ≥ portL then rPioBase else pioBase
  let bank := if port ≥ portL then port - portL else port
  base + 0x200 + bank * 0x20

/-- The bit of a pin, of which a bank has 32. -/
def bit (pin : Word) : Word := 1#32 <<< pin.toNat

def updateRegs (s : State) (port : Word) (f : IntRegs → IntRegs) : State :=
  { s with regs := Function.update s.regs (intRegsAddr port) (f (s.regs (intRegsAddr port))) }

def enablePinInterrupt (s : State) (port pin : Word) (trigger : IntTrigger) : State :=
  let shift := (pin % 8 * 4).toNat
  updateRegs s port fun r =>
    let cfg := (r.cfg (pin / 8) &&& ~~~(0x0F#32 <<< shift)) ||| ((trigger.toWord &&& 0x0F) <<< shift)
    let r := { r with cfg := Function.update r.cfg (pin / 8) cfg }
    let r := r.writeStatus (bit pin)
    { r with ctl := r.ctl ||| bit pin }

def disablePinInterrupt (s : State) (port pin : Word) : State :=
  updateRegs s port fun r => { r with ctl := r.ctl &&& ~~~(bit pin) }.writeStatus (bit pin)

/-- `AsyncPinEventAwaiter::await_suspend` up to the push, whose result it
discards. -/
def awaitSuspendPush (s : State) (h : Coro) (port pin : Word) : State :=
  { s with
    pending := (s.pending.push ⟨some h, port, pin⟩).2
    pc := .enabling port pin .risingEdge
    trace := s.trace ++ [.suspended h] }

/-- The first slot that is free or already has the pin. -/
def claimSlot (port pin : Word) (callback : Option Nat) (context : Nat) : List PinHandler → Option (List PinHandler)
  | [] => none
  | slot :: rest =>
    if slot.callback ≠ none ∧ (slot.port ≠ port ∨ slot.pin ≠ pin) then
      (claimSlot port pin callback context rest).map (slot :: ·)
    else some (⟨callback, context, port, pin⟩ :: rest)

def registerPinIsr (s : State) (port pin : Word) (callback : Option Nat) (context : Nat) (trigger : IntTrigger) :
    Bool × State :=
  match claimSlot port pin callback context s.handlers with
  | some handlers => (true, { s with handlers := handlers, pc := .enabling port pin trigger })
  | none => (false, s)

/-- `unregister_pin_isr` up to the end of its first masked section. -/
def unregisterPinIsr (s : State) (port pin : Word) : State :=
  { disablePinInterrupt s port pin with pc := .clearing port pin }

def clearSlots (s : State) (port pin : Word) : State :=
  { s with
    handlers := s.handlers.map fun slot =>
      if slot.callback ≠ none ∧ slot.port = port ∧ slot.pin = pin then { slot with callback := none, context := 0 }
      else slot }

/-- The callback of the first slot for the pin. -/
def callHandler (s : State) (port pin : Word) : State :=
  match s.handlers.find? fun slot => slot.callback ≠ none ∧ slot.port = port ∧ slot.pin = pin with
  | some slot =>
    match slot.callback with
    | some callback => { s with trace := s.trace ++ [.called callback slot.context port pin] }
    | none => s
  | none => s

/-- The loop over the queue: requests for other pins are rotated back. -/
def serveQueue (port pin : Word) : Nat → State → State
  | 0, s => s
  | n+1, s =>
    match s.pending.pop with
    | none => s
    | some (req, pending) =>
      if req.port = port ∧ req.pin = pin then
        { s with pending := pending, trace := s.trace ++ (req.handle.map Event.posted).toList }
      else serveQueue port pin n { s with pending := (pending.push req).2 }

def dispatchPinEvent (s : State) (port pin : Word) : State :=
  let s := callHandler s port pin
  serveQueue port pin s.pending.currentSize s

/-- `__builtin_ctz` of a nonzero word. -/
def ctz (v : Word) : Word := BitVec.ofNat 32 (((List.range 32).find? fun i => v.getLsbD i).getD 32)

/-- The loop of `handle_bank_isr`, which ends when no bit is left. -/
def servePins (port : Word) : Nat → Word → State → State
  | 0, _, s => s
  | n+1, pending, s =>
    if pending = 0 then s
    else servePins port n (pending &&& (pending - 1)) (dispatchPinEvent s port (ctz pending))

def handleBankIsr (s : State) (port : Word) : State :=
  let r := s.regs (intRegsAddr port)
  let pending := r.status &&& r.ctl
  if pending = 0 then s
  else servePins port 32 pending (updateRegs s port fun r => r.writeStatus pending)

def handleIsr (s : State) (port pin : Word) : State :=
  dispatchPinEvent (updateRegs s port fun r => r.writeStatus (bit pin)) port pin

inductive Action where
  | waitForEdge (h : Coro) (port pin : Word)
  | registerPinIsr (port pin : Word) (callback : Option Nat) (context : Nat) (trigger : IntTrigger)
  | unregisterPinIsr (port pin : Word)
  | proceed
  | edge (port pin : Word)
  | bankIsr (port : Word)
  | isr (port pin : Word)
  deriving DecidableEq, Repr

/-- The coroutine domain is in one call at a time; `proceed` runs the masked
section that is left of it. -/
def step (s : State) : Action → State
  | .waitForEdge h port pin => if s.pc = .outside then awaitSuspendPush s h port pin else s
  | .registerPinIsr port pin callback context trigger =>
    if s.pc = .outside then (registerPinIsr s port pin callback context trigger).2 else s
  | .unregisterPinIsr port pin => if s.pc = .outside then unregisterPinIsr s port pin else s
  | .proceed =>
    match s.pc with
    | .outside => s
    | .enabling port pin trigger => { enablePinInterrupt s port pin trigger with pc := .outside }
    | .clearing port pin => { clearSlots s port pin with pc := .outside }
  | .edge port pin => updateRegs s port fun r => { r with status := r.status ||| bit pin }
  | .bankIsr port => handleBankIsr s port
  | .isr port pin => handleIsr s port pin

def init : State where
  pending := .init
  handlers := List.replicate maxPinHandlers default
  regs _ := ⟨fun _ => 0, 0, 0⟩
  pc := .outside
  trace := []

def waitsOf (t : List Event) : List (Wait Coro) :=
  t.filterMap fun | .suspended h => some (.suspended h) | .posted h => some (.posted h) | _ => none

/-- Every coroutine that waits is in the queue. -/
def AllQueued (s : State) : Prop := AllHeld (s.pending.Holds PinEventRequest.handle) (waitsOf s.trace)

/-- A wait finds room in the queue. -/
def Room (s : State) : Action → Prop
  | .waitForEdge _ _ _ => s.pending.toList.length < 8
  | _ => True

instance (s : State) : (a : Action) → Decidable (Room s a)
  | .waitForEdge _ _ _ => inferInstanceAs (Decidable (s.pending.toList.length < 8))
  | .registerPinIsr _ _ _ _ _ | .unregisterPinIsr _ _ | .proceed | .edge _ _ | .bankIsr _ | .isr _ _ => .isTrue trivial

/-- A request that is popped and pushed back finds room, and goes to the end. -/
theorem rotate_toList {q q' : DriverRequestQueue PinEventRequest} {req : PinEventRequest}
    (h : q.toList = req :: q'.toList) : (q'.push req).2.toList = q'.toList ++ [req] := by
  have hlen : q'.toList.length + 1 ≤ 8 := by
    have := congrArg List.length h
    rw [List.length_cons, QueueSpscIsr.length_toList] at this
    exact this ▸ q.size_le
  rcases q'.push_cases req with ⟨-, hl⟩ | ⟨q'', hp, hq, -⟩
  · omega
  · rw [hp, hq]

theorem serveQueue_allQueued (port pin : Word) (n : Nat) {s : State} (hs : AllQueued s) :
    AllQueued (serveQueue port pin n s) := by
  induction n generalizing s with
  | zero => exact hs
  | succ n ih =>
    unfold serveQueue
    rcases s.pending.pop_cases with ⟨hp, -⟩ | ⟨req, q, hp, hq⟩
    · rwa [hp]
    · rw [hp]
      simp only
      split
      · have h := QueueSpscIsr.allHeld_pop hs hq
        cases hh : req.handle <;> simpa [AllQueued, waitsOf, postedWait, hh] using h
      · refine ih (AllHeld.mono hs ?_)
        rintro d ⟨r, hr, hd⟩
        refine ⟨r, ?_, hd⟩
        rw [hq] at hr
        simpa [rotate_toList hq, or_comm] using hr

theorem dispatchPinEvent_allQueued (port pin : Word) {s : State} (hs : AllQueued s) :
    AllQueued (dispatchPinEvent s port pin) := by
  refine serveQueue_allQueued port pin _ ?_
  unfold callHandler
  split
  · split
    · simpa [AllQueued, waitsOf] using hs
    · exact hs
  · exact hs

theorem servePins_allQueued (port : Word) (n : Nat) (pending : Word) {s : State} (hs : AllQueued s) :
    AllQueued (servePins port n pending s) := by
  induction n generalizing pending s with
  | zero => exact hs
  | succ n ih =>
    unfold servePins
    split
    · exact hs
    · exact ih _ (dispatchPinEvent_allQueued port _ hs)

theorem handleBankIsr_allQueued (port : Word) {s : State} (hs : AllQueued s) : AllQueued (handleBankIsr s port) := by
  unfold handleBankIsr
  simp only
  split
  · exact hs
  · refine servePins_allQueued port _ _ ?_
    exact hs

theorem step_allQueued {s : State} {a : Action} (hs : AllQueued s) (ha : Room s a) : AllQueued (step s a) := by
  cases a with
  | waitForEdge h port pin =>
    simp only [step]
    split
    · have hq : AllHeld ((s.pending.push ⟨some h, port, pin⟩).2.Holds _) _ := QueueSpscIsr.allHeld_push hs ha rfl
      simpa [AllQueued, awaitSuspendPush, waitsOf] using hq
    · exact hs
  | registerPinIsr port pin callback context trigger =>
    simp only [step, registerPinIsr]
    split
    · split <;> exact hs
    · exact hs
  | unregisterPinIsr port pin =>
    simp only [step]
    split <;> exact hs
  | proceed =>
    simp only [step]
    split <;> exact hs
  | edge port pin => exact hs
  | bankIsr port => exact handleBankIsr_allQueued port hs
  | isr port pin =>
    refine dispatchPinEvent_allQueued port pin ?_
    exact hs

end IoProcessor.Hal.Gpio
