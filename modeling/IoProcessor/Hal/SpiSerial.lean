import IoProcessor.Hal.SpiBus

/-! Serialisation of one SPI bus: the invariant that ties the busy flag, the
active request, the queue and the controller together, over every interleaving
of awaits, exchanges and transfer-complete interrupts. -/
namespace IoProcessor.Hal.SpiDma
open Library MemoryMap History

/-- The order of the events of one bus: a transfer is started when all earlier
ones are complete, and a request is posted once its receive buffer is filled. -/
def BusOrder (pre : List Event) : Event → Prop
  | .started _ _ _ => startedOf pre = completedOf pre
  | .stored _ r bytes => bytes.length = r.rxData.size.toNat
  | .posted _ r h => r.handle = some h ∧ storedOf pre = postedOf pre ++ [r]
  | _ => True

structure Bus.Serial (b : Bus) : Prop where
  pushed : pushedOf b.history = startedOf b.history ++ b.queue
  started : startedOf b.history = postedOf b.history ++ if b.busy then [b.active] else []
  stored : storedOf b.history = postedOf b.history
  completed : completedOf b.history = postedOf b.history ++ if b.regs.tc then [b.active] else []
  handles : (handlesOf b.history).map some = (postedOf b.history).map (·.handle)
  wire : b.wire = if b.busy then some b.active else none
  idle : b.busy = false → b.active = default ∧ b.regs.tc = false ∧ (b.suspending = false → b.queue = [])
  active : b.busy = true → b.active.handle.isSome
  queued : ∀ r ∈ b.queue, r.handle.isSome
  order : AtEvery BusOrder b.history

theorem Bus.serial_init (ram : Memory) (i : Instance) : (busOf (init ram) i).Serial := by
  constructor <;> simp [busOf, init, historyOf, pushedOf, startedOf, storedOf, completedOf, postedOf,
    handlesOf, Controller.initial, Controller.tc]

namespace Bus.Serial
variable {base : Word} {b : Bus} {req : TransferRequest} {rest : List TransferRequest}

theorem busy_of_tc (h : b.Serial) (tc : b.regs.tc = true) : b.busy = true := by
  by_contra hb
  simp [(h.idle (by simpa using hb)).2.1] at tc

/-- An await that finds the queue full. -/
theorem reject (h : b.Serial) (c : Coro) :
    Bus.Serial { b with suspending := true, history := b.history ++ [.suspended base c] } where
  pushed := by simpa using h.pushed
  started := by simpa using h.started
  stored := by simpa using h.stored
  completed := by simpa using h.completed
  handles := by simpa using h.handles
  wire := h.wire
  idle hb := ⟨(h.idle hb).1, (h.idle hb).2.1, by simp⟩
  active := h.active
  queued := h.queued
  order := h.order.append (by simp [BusOrder])

/-- An await whose request is queued. -/
theorem accept (h : b.Serial) {c : Coro} (hreq : req.handle = some c) :
    Bus.Serial { b with
      queue := b.queue ++ [req]
      suspending := true
      history := b.history ++ [.suspended base c, .pushed base req] } where
  pushed := by simp [h.pushed]
  started := by simpa using h.started
  stored := by simpa using h.stored
  completed := by simpa using h.completed
  handles := by simpa using h.handles
  wire := h.wire
  idle hb := ⟨(h.idle hb).1, (h.idle hb).2.1, by simp⟩
  active := h.active
  queued := by
    rw [List.forall_mem_append, List.forall_mem_singleton]
    exact ⟨h.queued, by simp [hreq]⟩
  order := h.order.append (by simp [BusOrder])

theorem leave (h : b.Serial) (hw : b.busy = true ∨ b.queue = []) : { b with suspending := false }.Serial := by
  refine { h with idle := fun hb => ?_ }
  have hi := h.idle hb
  exact ⟨hi.1, hi.2.1, fun _ => hw.resolve_left (by simpa using hb)⟩

/-- The oldest request is started on an idle bus. -/
theorem startIdle (h : b.Serial) (ram : Memory) (idle : b.busy = false) (hq : b.queue = req :: rest) :
    { b.launch base ram req rest with suspending := false }.Serial := by
  obtain ⟨-, htc, -⟩ := h.idle idle
  constructor
  case pushed => simp [Bus.launch, h.pushed, hq]
  case started => simp [Bus.launch, h.started, idle]
  case stored => simpa [Bus.launch] using h.stored
  case completed => simpa [Bus.launch, htc] using h.completed
  case handles => simpa [Bus.launch] using h.handles
  case wire => rfl
  case idle => simp [Bus.launch]
  case active => exact fun _ => h.queued req (by simp [hq])
  case queued => exact fun r hr => h.queued r (hq ▸ List.mem_cons_of_mem _ hr)
  case order =>
    refine atEvery_concat.mpr ⟨h.order, ?_⟩
    simp only [BusOrder, h.started, h.completed, idle, htc]

/-- The controller is done with the request on the wire. -/
theorem exchange (h : b.Serial) {bytes : List Byte} (hw : b.wire = some req) (running : b.regs.tc = false) :
    Bus.Serial { b with
      regs := b.regs.finishExchange bytes
      history := b.history ++ [.completed base req] } := by
  obtain ⟨hb, rfl⟩ : b.busy = true ∧ b.active = req := by
    rw [h.wire] at hw
    split at hw
    · exact ⟨by assumption, Option.some.inj hw⟩
    · cases hw
  constructor
  case pushed => simpa using h.pushed
  case started => simpa using h.started
  case stored => simpa using h.stored
  case completed => simp [h.completed, running]
  case handles => simpa using h.handles
  case wire => exact h.wire
  case idle => simp [hb]
  case active => exact h.active
  case queued => exact h.queued
  case order => exact h.order.append (by simp [BusOrder])

/-- The interrupt of the last request: the bus goes idle. -/
theorem serveLast (h : b.Serial) (tc : b.regs.tc = true) (hq : b.queue = []) :
    ({ b.receive base with busy := false, active := default }.post base b.active).Serial := by
  have hb := h.busy_of_tc tc
  obtain ⟨c, hc⟩ := Option.isSome_iff_exists.mp (h.active hb)
  simp only [Bus.post, hc]
  constructor
  case pushed => simpa [Bus.receive] using h.pushed
  case started => simpa [Bus.receive, hb] using h.started
  case stored => simpa [Bus.receive] using h.stored
  case completed => simpa [Bus.receive, tc] using h.completed
  case handles => simpa [Bus.receive, hc] using h.handles
  case wire => rfl
  case idle => exact fun _ => ⟨rfl, by simp [Bus.receive], fun _ => hq⟩
  case active => simp
  case queued => exact h.queued
  case order =>
    refine atEvery_concat.mpr ⟨h.order.append (by simp [BusOrder]), hc, ?_⟩
    simp [Bus.receive, h.stored]

/-- The interrupt of a request that others wait behind: the next one is started
before the first one is posted. -/
theorem serveNext (h : b.Serial) (ram : Memory) (tc : b.regs.tc = true) (hq : b.queue = req :: rest) :
    (((b.receive base).launch base ram req rest).post base b.active).Serial := by
  have hb := h.busy_of_tc tc
  obtain ⟨c, hc⟩ := Option.isSome_iff_exists.mp (h.active hb)
  have hstart : startedOf b.history = completedOf b.history := by rw [h.started, h.completed, hb, tc]
  simp only [Bus.post, hc]
  constructor
  case pushed => simp [Bus.launch, Bus.receive, h.pushed, hq]
  case started => simp [Bus.launch, Bus.receive, h.started, hb]
  case stored => simpa [Bus.launch, Bus.receive] using h.stored
  case completed => simpa [Bus.launch, Bus.receive, tc] using h.completed
  case handles => simpa [Bus.launch, Bus.receive, hc] using h.handles
  case wire => rfl
  case idle => simp [Bus.launch]
  case active => exact fun _ => h.queued req (by simp [hq])
  case queued => exact fun r hr => h.queued r (hq ▸ List.mem_cons_of_mem _ hr)
  case order =>
    refine atEvery_concat.mpr ⟨atEvery_concat.mpr ⟨h.order.append (by simp [BusOrder]), ?_⟩, hc, ?_⟩
    · simpa [BusOrder, Bus.receive] using hstart
    · simp [Bus.launch, Bus.receive, h.stored]

end Bus.Serial

theorem BusStep.serial {base : Word} {b c : Bus} (hs : BusStep base b c) (h : b.Serial) : c.Serial := by
  cases hs with
  | rejected c full => exact h.reject c
  | accepted c tx rx room => exact h.accept rfl
  | leftWaiting hw => exact h.leave hw
  | startedIdle ram idle hq => exact h.startIdle ram idle hq
  | exchanged bytes hw running hl => exact h.exchange hw running
  | servedLast tc hq => exact h.serveLast tc hq
  | servedNext ram tc hq => exact h.serveNext ram tc hq

/-- The invariant of the whole driver. -/
structure Serialised (s : State) : Prop where
  onBus : OnBus s
  serial : ∀ i, (busOf s i).Serial

theorem serialised_init (ram : Memory) : Serialised (init ram) :=
  ⟨by simp [OnBus, init], Bus.serial_init ram⟩

theorem Serialised.step {s : State} {a : Action} (h : Serialised s) (ha : OwnInterrupts s a) :
    Serialised (step s a) := by
  refine ⟨onBus_step h.onBus ha, fun i => ?_⟩
  rcases step_bus h.onBus ha i with he | he
  · rw [he]
    exact h.serial i
  · exact he.serial (h.serial i)

theorem run_serialised {ram : Memory} {acts : List Action}
    (h : Along step OwnInterrupts (init ram) acts) : Serialised (run ram acts) :=
  run_invariant_along (fun _ _ hs ha => hs.step ha) (serialised_init ram) h

/-- Over every interleaving of awaits and transfer-complete interrupts, each of
the two buses runs one transfer at a time in the order of the pushes, posts
exactly the completed requests, each after its buffer was filled, and outside
`await_suspend` its flag tells what is queued and what is on the wire. A
completion whose interrupt has not been taken is the only one not yet posted. -/
theorem bus_serialised (ram : Memory) (acts : List Action)
    (h : Along step OwnInterrupts (init ram) acts) (i : Instance) :
    let s := run ram acts
    let t := historyOf i.base s.trace
    AtEvery BusOrder t ∧ startedOf t <+: pushedOf t ∧
      (completedOf t).map (·.handle) = (handlesOf t).map some ++
        (if (s.regs i.base).tc then [(s.active i).handle] else []) ∧
      (s.suspending ≠ some i.base →
        (s.busy i = false → (s.pending i).toList = [] ∧ (s.active i).handle = none) ∧
        (s.busy i = true → s.wire i.base = some (s.active i))) := by
  intro s t
  obtain ⟨hpush, -, -, hcomp, hhand, hwire, hidle, -, -, hord⟩ := (run_serialised h).serial i
  refine ⟨hord, ⟨_, hpush.symm⟩, ?_, fun hs => ⟨fun hb => ?_, fun hb => ?_⟩⟩
  · have hc := congrArg (List.map (·.handle)) hcomp
    rw [List.map_append, ← hhand, apply_ite (List.map _)] at hc
    exact hc
  · obtain ⟨ha, -, hq⟩ := hidle hb
    refine ⟨hq (by simpa [busOf] using hs), ?_⟩
    exact congrArg TransferRequest.handle ha
  · exact hwire.trans (if_pos hb)

/-- Two coroutines on one bus: the interrupt of the first lands while the await
of the second is between its push and its start. -/
private def twoTransfers : List Action :=
  [.coAwait spi0Base 1 ⟨0x1000, 1⟩ ⟨0x2000, 2⟩, .start, .exchange spi0Base [0xAA, 0xBB],
    .coAwait spi0Base 2 ⟨0x1000, 1⟩ ⟨0x2000, 1⟩, .isr .spi0, .start]

theorem bus_serialised_two_transfers :
    let t := historyOf spi0Base (run (fun _ => 0) twoTransfers).trace
    Along step OwnInterrupts (init fun _ => 0) twoTransfers ∧ (startedOf t).length = 2 ∧
      startedOf t <+: pushedOf t := by
  have h : Along step OwnInterrupts (init fun _ => 0) twoTransfers := by decide
  exact ⟨h, by decide, (bus_serialised (fun _ => 0) twoTransfers h .spi0).2.1⟩

end IoProcessor.Hal.SpiDma
