import IoProcessor.Hal.DriverRequestQueue
import IoProcessor.Library.Copies

/-! The transmit side of UartDmaDriver: a write puts its bytes into the FIFO from
the coroutine domain while completion interrupts may come at any time. Its last
call pops from the queue like the interrupt does, but without the lock, so the
queue is modelled by its fields here. -/
namespace IoProcessor.Hal.UartDma.Transmit
open Library Waiters

structure WriteRequest where
  handle : Option Coro
  data : Span
  deriving DecidableEq, Repr

instance : Inhabited WriteRequest := ⟨⟨none, ⟨0, 0⟩⟩⟩

/-- The fields of `queue_spsc_isr<WriteRequest, 8>`, with whatever they hold. -/
structure WriteQueue where
  buffer : Byte → WriteRequest
  writeIndex : Byte
  readIndex : Byte
  currentSize : Byte

namespace WriteQueue

def getNextIndex (index : Byte) : Byte := if index + 1 = 8 then 0 else index + 1

/-- `push_implementation`, under the lock. -/
def push (q : WriteQueue) (value : WriteRequest) : Bool × WriteQueue :=
  if q.currentSize ≠ 8 then
    (true, { q with
      buffer := Function.update q.buffer q.writeIndex value
      writeIndex := getNextIndex q.writeIndex
      currentSize := q.currentSize + 1 })
  else (false, q)

/-- `pop_implementation`, in one go. -/
def pop (q : WriteQueue) : Option (WriteRequest × WriteQueue) :=
  if q.currentSize = 0 then none
  else some (q.buffer q.readIndex, { q with
    readIndex := getNextIndex q.readIndex
    currentSize := q.currentSize - 1 })

def of (q : DriverRequestQueue WriteRequest) : WriteQueue :=
  ⟨fun i => q.buffer i.toNat, .ofNat 8 q.writeIndex, .ofNat 8 q.readIndex, .ofNat 8 q.currentSize⟩

private theorem ofNat_inj {m n : Nat} (hm : m ≤ 8) (hn : n ≤ 8) : BitVec.ofNat 8 m = BitVec.ofNat 8 n ↔ m = n := by
  rw [← BitVec.toNat_inj, BitVec.toNat_ofNat, BitVec.toNat_ofNat, Nat.mod_eq_of_lt (by omega), Nat.mod_eq_of_lt (by omega)]

private theorem getNextIndex_of {i : Nat} (h : i < 8) :
    getNextIndex (.ofNat 8 i) = .ofNat 8 (QueueSpscIsr.getNextIndex i 8) := by
  interval_cases i <;> rfl

/-- The operations under the lock are those of the queue of the other drivers. -/
theorem of_push (q : DriverRequestQueue WriteRequest) (value : WriteRequest) :
    (of q).push value = Prod.map id of (q.push value) := by
  have hsize : (of q).currentSize ≠ 8 ↔ q.currentSize ≠ 8 := (ofNat_inj q.size_le (Nat.le_refl 8)).not
  rw [push, QueueSpscIsr.push]
  by_cases h : q.currentSize ≠ 8
  · rw [if_pos (hsize.mpr h), dif_pos h]
    refine congrArg (Prod.mk true) ?_
    have hbuffer : Function.update (of q).buffer (of q).writeIndex value =
        fun i => if i.toNat = q.writeIndex then value else q.buffer i.toNat := by
      funext i
      have hi : i = BitVec.ofNat 8 q.writeIndex ↔ i.toNat = q.writeIndex := by
        rw [← BitVec.toNat_inj, BitVec.toNat_ofNat, Nat.mod_eq_of_lt (by have := q.write_lt; omega)]
      rw [Function.update_apply]
      exact if_congr hi rfl rfl
    have hnext : getNextIndex (of q).writeIndex = .ofNat 8 (QueueSpscIsr.getNextIndex q.writeIndex 8) :=
      getNextIndex_of q.write_lt
    have hmore : (of q).currentSize + 1 = .ofNat 8 (q.currentSize + 1) := by
      rw [BitVec.ofNat_add]
      rfl
    rw [hbuffer, hnext, hmore]
    rfl
  · rw [if_neg (hsize.not.mpr h), dif_neg h]
    rfl

theorem of_pop (q : DriverRequestQueue WriteRequest) : (of q).pop = q.pop.map (Prod.map id of) := by
  have hsize : (of q).currentSize = 0 ↔ q.currentSize = 0 := ofNat_inj q.size_le (Nat.zero_le 8)
  rw [pop, QueueSpscIsr.pop]
  by_cases h : q.currentSize = 0
  · rw [if_pos (hsize.mpr h), dif_pos h]
    rfl
  · rw [if_neg (hsize.not.mpr h), dif_neg h, Option.map_some]
    have hread := q.read_lt
    have hvalue : (of q).buffer (of q).readIndex = q.buffer q.readIndex := by
      change q.buffer (BitVec.ofNat 8 q.readIndex).toNat = _
      rw [BitVec.toNat_ofNat, Nat.mod_eq_of_lt (by omega)]
    have hless : BitVec.ofNat 8 q.currentSize - 1 = BitVec.ofNat 8 (q.currentSize - 1) := by
      have hle := q.size_le
      generalize q.currentSize = n at h hle
      interval_cases n
      · exact absurd rfl h
      all_goals rfl
    rw [hvalue]
    simp only [of, getNextIndex_of hread, hless]
    rfl

end WriteQueue

/-- An access to the registers of the UART. -/
inductive Access where
  | readLsr (lsr : Word)
  | writeThr (b : Byte)
  deriving DecidableEq, Repr

structure State where
  pendingWrites : WriteQueue
  ram : Memory
  accesses : List Access
  waits : List (Wait Coro)

/-- `handle_tx_dma_isr` as the interrupt runs it. -/
def handleTxDmaIsr (s : State) : State :=
  match s.pendingWrites.pop with
  | some (req, pendingWrites) =>
    { s with pendingWrites := pendingWrites, waits := s.waits ++ postedWait req.handle }
  | none => s

/-- Completion interrupts that are taken one after the other. -/
def interrupts : Nat → State → State
  | 0, s => s
  | n+1, s => interrupts n (handleTxDmaIsr s)

/-- What one turn of the wait for the FIFO meets: interrupts before the read of
LSR, its value, and interrupts behind it. -/
structure Turn where
  before : Nat
  lsr : Word
  behind : Nat
  deriving DecidableEq, Repr

def Turn.ready (t : Turn) : Bool := t.lsr &&& 0x20 != 0

def poll (t : Turn) (s : State) : State :=
  let s := interrupts t.before s
  interrupts t.behind { s with accesses := s.accesses ++ [.readLsr t.lsr] }

/-- The loop over the bytes, with the turns left when it ends. Out of turns it is
still waiting. -/
def send : List Turn → List Byte → State → Option (State × List Turn)
  | turns, [], s => some (s, turns)
  | [], _ :: _, _ => none
  | t :: turns, b :: bytes, s =>
    let s := poll t s
    if !t.ready then send turns (b :: bytes) s
    else send turns bytes { s with accesses := s.accesses ++ [.writeThr b] }

/-- The completion interrupts during the pop that `start_tx_dma` makes itself:
before its test of the size, before each access behind it, and behind the last. -/
structure Gaps where
  test : Nat
  value : Nat
  index : Nat
  indexStore : Nat
  size : Nat
  sizeStore : Nat
  behind : Nat
  deriving DecidableEq, Repr

/-- The accesses of `pop_implementation` behind its test. -/
def takeUnlocked (g : Gaps) (s : State) : WriteRequest × State :=
  let s := interrupts g.value s
  let req := s.pendingWrites.buffer s.pendingWrites.readIndex
  let s := interrupts g.index s
  let next := WriteQueue.getNextIndex s.pendingWrites.readIndex
  let s := interrupts g.indexStore s
  let s := { s with pendingWrites.readIndex := next }
  let s := interrupts g.size s
  let size := s.pendingWrites.currentSize - 1
  let s := interrupts g.sizeStore s
  (req, { s with pendingWrites.currentSize := size })

/-- `handle_tx_dma_isr` as `start_tx_dma` calls it, with interrupts enabled. -/
def handleUnlocked (g : Gaps) (s : State) : State :=
  let s := interrupts g.test s
  if s.pendingWrites.currentSize = 0 then s
  else
    let (req, s) := takeUnlocked g s
    let s := interrupts g.behind s
    { s with waits := s.waits ++ postedWait req.handle }

def startTxDma (turns : List Turn) (gaps : Gaps) (data : Span) (s : State) : Option State :=
  (send turns (s.ram.read data) s).map fun (s, _) => handleUnlocked gaps s

/-- `AsyncWriteAwaiter::await_suspend`, which discards the push's result. -/
def awaitSuspend (turns : List Turn) (gaps : Gaps) (h : Coro) (data : Span) (s : State) : Option State :=
  let s := { s with
    pendingWrites := (s.pendingWrites.push ⟨some h, data⟩).2
    waits := s.waits ++ [.suspended h] }
  startTxDma turns gaps data s

/-- `co_await async_write(data)`, which is ready at once without data. -/
def asyncWrite (turns : List Turn) (gaps : Gaps) (h : Coro) (data : Span) (s : State) : Option State :=
  if data.size = 0 then some s else awaitSuspend turns gaps h data s

def init (ram : Memory) : State where
  pendingWrites := .of .init
  ram := ram
  accesses := []
  waits := []

/-- A write during which the FIFO has room often enough. -/
structure Write where
  turns : List Turn
  gaps : Gaps
  handle : Coro
  data : Span
  enough : data.size.toNat ≤ turns.countP Turn.ready

inductive Action where
  | write (w : Write)
  | completion

def step (s : State) : Action → Option State
  | .write w => asyncWrite w.turns w.gaps w.handle w.data s
  | .completion => some (handleTxDmaIsr s)

def run (ram : Memory) (actions : List Action) : Option State := actions.foldlM step (init ram)

/-- No completion interrupt comes while the last pop of the write is under way. A
pop that finds the queue empty has no accesses behind its test. -/
def Action.Undisturbed : Action → Prop
  | .write w => w.gaps.value = 0 ∧ w.gaps.index = 0 ∧ w.gaps.indexStore = 0 ∧ w.gaps.size = 0 ∧ w.gaps.sizeStore = 0
  | .completion => True

/-- The bytes put into the FIFO. -/
def sent (accesses : List Access) : List Byte := accesses.filterMap fun | .writeThr b => some b | .readLsr _ => none

/-- Each byte is put right behind a read of LSR that reports room. -/
inductive Paced : List Access → Prop where
  | nil : Paced []
  | read {log : List Access} (h : Paced log) (lsr : Word) : Paced (log ++ [.readLsr lsr])
  | write {log : List Access} (h : Paced log) {lsr : Word} (room : lsr &&& 0x20 ≠ 0) (b : Byte) :
    Paced (log ++ [.readLsr lsr] ++ [.writeThr b])

namespace WriteQueue

/-- Nothing is queued, and the next push is the next pop. -/
def Settled (q : WriteQueue) : Prop := q.currentSize = 0 ∧ q.readIndex = q.writeIndex

/-- One request is queued. -/
structure Single (q : WriteQueue) (req : WriteRequest) : Prop where
  size : q.currentSize = 1
  value : q.buffer q.readIndex = req
  next : getNextIndex q.readIndex = q.writeIndex

variable {q : WriteQueue} {req : WriteRequest}

theorem Settled.push (h : q.Settled) (req : WriteRequest) :
    ∃ q', q.push req = (true, q') ∧ q'.Single req := by
  have hroom : q.currentSize ≠ 8 := by
    rw [h.1]
    decide
  refine ⟨_, if_pos hroom, ?_, ?_, ?_⟩
  · simp only [h.1]
    rfl
  · simp only [h.2, Function.update_self]
  · exact congrArg getNextIndex h.2

theorem Single.pop (h : q.Single req) : ∃ q', q.pop = some (req, q') ∧ q'.Settled ∧
    q' = { q with readIndex := getNextIndex q.readIndex, currentSize := 0 } := by
  have hsome : q.currentSize ≠ 0 := by
    rw [h.size]
    decide
  have hzero : q.currentSize - 1 = 0 := by
    rw [h.size]
    rfl
  rw [WriteQueue.pop, if_neg hsome, h.value, hzero]
  exact ⟨_, rfl, ⟨rfl, h.next⟩, rfl⟩

end WriteQueue

/-- While a write goes on: its coroutine is in the queue, or it has been posted. -/
def Owing (h : Coro) (earlier : List (Wait Coro)) (s : State) : Prop :=
  (∃ data, s.pendingWrites.Single ⟨some h, data⟩ ∧ s.waits = earlier) ∨
    (s.pendingWrites.Settled ∧ s.waits = earlier ++ [.posted h])

section
variable {h : Coro} {earlier : List (Wait Coro)} {s : State}

theorem handleTxDmaIsr_empty (hs : s.pendingWrites.currentSize = 0) : handleTxDmaIsr s = s := by
  have hpop : s.pendingWrites.pop = none := if_pos hs
  rw [handleTxDmaIsr, hpop]

/-- A completion interrupt posts the coroutine if that is still owed. -/
theorem handleTxDmaIsr_owing (ho : Owing h earlier s) :
    (handleTxDmaIsr s).pendingWrites.Settled ∧ (handleTxDmaIsr s).waits = earlier ++ [.posted h] ∧
      (handleTxDmaIsr s).accesses = s.accesses ∧ (handleTxDmaIsr s).ram = s.ram := by
  rcases ho with ⟨data, hone, hwaits⟩ | ⟨hsettled, hwaits⟩
  · obtain ⟨q, hpop, hsettled, -⟩ := hone.pop
    rw [handleTxDmaIsr, hpop]
    exact ⟨hsettled, congrArg (· ++ [Wait.posted h]) hwaits, rfl, rfl⟩
  · rw [handleTxDmaIsr_empty hsettled.1]
    exact ⟨hsettled, hwaits, rfl, rfl⟩

theorem interrupts_empty (n : Nat) (hs : s.pendingWrites.currentSize = 0) : interrupts n s = s := by
  induction n with
  | zero => rfl
  | succ n ih => rw [interrupts, handleTxDmaIsr_empty hs, ih]

/-- The first interrupt takes the only request there is. -/
theorem interrupts_one (n : Nat) (hs : s.pendingWrites.currentSize = 1) :
    (n = 0 ∧ interrupts n s = s) ∨ interrupts n s = handleTxDmaIsr s ∧ (handleTxDmaIsr s).pendingWrites =
      { s.pendingWrites with readIndex := WriteQueue.getNextIndex s.pendingWrites.readIndex, currentSize := 0 } := by
  have hqueue : (handleTxDmaIsr s).pendingWrites =
      { s.pendingWrites with readIndex := WriteQueue.getNextIndex s.pendingWrites.readIndex, currentSize := 0 } := by
    rw [handleTxDmaIsr, WriteQueue.pop, hs, if_neg (by decide)]
    rfl
  cases n with
  | zero => exact .inl ⟨rfl, rfl⟩
  | succ n =>
    refine .inr ⟨interrupts_empty n ?_, hqueue⟩
    rw [hqueue]

theorem interrupts_owing (n : Nat) (ho : Owing h earlier s) :
    Owing h earlier (interrupts n s) ∧ (interrupts n s).accesses = s.accesses ∧ (interrupts n s).ram = s.ram := by
  induction n generalizing s with
  | zero => exact ⟨ho, rfl, rfl⟩
  | succ n ih =>
    obtain ⟨hempty, hwaits, haccesses, hram⟩ := handleTxDmaIsr_owing ho
    obtain ⟨hn, hna, hnr⟩ := ih (.inr ⟨hempty, hwaits⟩)
    exact ⟨hn, hna.trans haccesses, hnr.trans hram⟩

theorem poll_owing (t : Turn) (ho : Owing h earlier s) :
    Owing h earlier (poll t s) ∧ (poll t s).accesses = s.accesses ++ [.readLsr t.lsr] ∧ (poll t s).ram = s.ram := by
  obtain ⟨hb, hba, hbr⟩ := interrupts_owing t.before ho
  obtain ⟨ha, haa, har⟩ := interrupts_owing (s := { interrupts t.before s with
    accesses := (interrupts t.before s).accesses ++ [.readLsr t.lsr] }) t.behind hb
  refine ⟨ha, ?_, har.trans hbr⟩
  rw [poll, haa, hba]

theorem sent_read (log : List Access) (lsr : Word) : sent (log ++ [.readLsr lsr]) = sent log := by simp [sent]

theorem sent_write (log : List Access) (b : Byte) : sent (log ++ [.writeThr b]) = sent log ++ [b] := by simp [sent]

/-- The loop sends the bytes in order, each when there is room. -/
theorem send_spec (turns : List Turn) (bytes : List Byte) (ho : Owing h earlier s) (hp : Paced s.accesses)
    (henough : bytes.length ≤ turns.countP Turn.ready) :
    ∃ s' rest, send turns bytes s = some (s', rest) ∧ Owing h earlier s' ∧ Paced s'.accesses ∧
      sent s'.accesses = sent s.accesses ++ bytes ∧ s'.ram = s.ram := by
  induction turns generalizing bytes s with
  | nil =>
    obtain rfl : bytes = [] := List.length_eq_zero_iff.mp (Nat.le_zero.mp henough)
    exact ⟨s, [], by rw [send], ho, hp, by rw [List.append_nil], rfl⟩
  | cons t turns ih =>
    cases bytes with
    | nil => exact ⟨s, t :: turns, by rw [send], ho, hp, by rw [List.append_nil], rfl⟩
    | cons b bytes =>
      obtain ⟨hpo, hpa, hpr⟩ := poll_owing t ho
      rw [List.countP_cons] at henough
      rw [send]
      cases hr : t.ready with
      | false =>
        rw [hr] at henough
        have hpaced : Paced (poll t s).accesses := hpa ▸ hp.read t.lsr
        obtain ⟨s', rest, hs, hso, hsp, hsb, hsr⟩ := ih (b :: bytes) hpo hpaced henough
        refine ⟨s', rest, hs, hso, hsp, ?_, hsr.trans hpr⟩
        rw [hsb, hpa, sent_read]
      | true =>
        rw [hr, if_pos rfl, List.length_cons] at henough
        have hroom : t.lsr &&& 0x20 ≠ 0 := bne_iff_ne.mp hr
        have hpaced : Paced ((poll t s).accesses ++ [.writeThr b]) := hpa ▸ hp.write hroom b
        obtain ⟨s', rest, hs, hso, hsp, hsb, hsr⟩ :=
          ih (s := { poll t s with accesses := (poll t s).accesses ++ [.writeThr b] }) bytes hpo hpaced (by omega)
        refine ⟨s', rest, hs, hso, hsp, ?_, hsr.trans hpr⟩
        rw [hsb, sent_write, hpa, sent_read, List.append_assoc]
        rfl

/-- The pop of `start_tx_dma`, undisturbed, does what a completion interrupt does. -/
theorem handleUnlocked_owing {g : Gaps} (hg : g.value = 0 ∧ g.index = 0 ∧ g.indexStore = 0 ∧ g.size = 0 ∧ g.sizeStore = 0)
    (ho : Owing h earlier s) :
    (handleUnlocked g s).pendingWrites.Settled ∧ (handleUnlocked g s).waits = earlier ++ [.posted h] ∧
      (handleUnlocked g s).accesses = s.accesses ∧ (handleUnlocked g s).ram = s.ram := by
  obtain ⟨ht, hta, htr⟩ := interrupts_owing g.test ho
  rw [handleUnlocked]
  rcases ht with ⟨data, hone, hwaits⟩ | ⟨hsettled, hwaits⟩
  · have hsome : (interrupts g.test s).pendingWrites.currentSize ≠ 0 := by
      rw [hone.size]
      decide
    obtain ⟨hvalue, hindex, hindexStore, hsize, hsizeStore⟩ := hg
    obtain ⟨q, hpop, hsettled, hq⟩ := hone.pop
    have htake : takeUnlocked g (interrupts g.test s) =
        (⟨some h, data⟩, { interrupts g.test s with pendingWrites := q }) := by
      simp only [takeUnlocked, hvalue, hindex, hindexStore, hsize, hsizeStore, interrupts, hone.value, hone.size, hq]
      rfl
    simp only [if_neg hsome, htake]
    rw [interrupts_empty g.behind hsettled.1]
    exact ⟨hsettled, congrArg (· ++ [Wait.posted h]) hwaits, hta, htr⟩
  · simp only [if_pos hsettled.1]
    exact ⟨hsettled, hwaits, hta, htr⟩

theorem getNextIndex_ne (index : Byte) : WriteQueue.getNextIndex index ≠ index := by
  revert index
  decide

/-- Completion interrupts during that pop, any number of them and anywhere behind
its test, leave the queue with a size that has wrapped or with its indices apart. -/
theorem takeUnlocked_disturbed {g : Gaps} {req : WriteRequest} (hone : s.pendingWrites.Single req)
    (hg : ¬ (g.value = 0 ∧ g.index = 0 ∧ g.indexStore = 0 ∧ g.size = 0 ∧ g.sizeStore = 0)) :
    let q := (takeUnlocked g s).2.pendingWrites
    q.currentSize = 255 ∨ (q.currentSize = 0 ∧ q.readIndex ≠ q.writeIndex) := by
  intro q
  have hone' (t : State) (ht : t.pendingWrites.currentSize = 1) (n : Nat) :
      (n = 0 ∧ interrupts n t = t) ∨ (interrupts n t).pendingWrites.currentSize = 0 := by
    refine (interrupts_one n ht).imp_right ?_
    rintro ⟨hn, hq⟩
    rw [hn, hq]
  -- Once the request is gone the size is loaded as 0 and stored as 255.
  rcases hone' s hone.size g.value with ⟨hv, h1⟩ | h1
  · rcases hone' s hone.size g.index with ⟨hi, h2⟩ | h2
    · rcases hone' s hone.size g.indexStore with ⟨his, h3⟩ | h3
      · let t : State := { s with pendingWrites.readIndex := WriteQueue.getNextIndex s.pendingWrites.readIndex }
        have ht : t.pendingWrites.currentSize = 1 := hone.size
        rcases hone' t ht g.size with ⟨hsz, h4⟩ | h4
        · -- The interrupt has moved the read index on once more.
          rcases interrupts_one g.sizeStore ht with ⟨hss, -⟩ | ⟨h5, h6⟩
          · exact absurd ⟨hv, hi, his, hsz, hss⟩ hg
          · right
            have hq : q = { (handleTxDmaIsr t).pendingWrites with currentSize := t.pendingWrites.currentSize - 1 } := by
              simp only [q, takeUnlocked, h1, h2, h3]
              rw [show interrupts g.size { s with pendingWrites.readIndex := _ } = t from h4, h5]
            rw [hq, h6, ht]
            refine ⟨rfl, ?_⟩
            simp only [t, hone.next]
            exact getNextIndex_ne _
        · left
          simp only [t] at h4
          simp [q, takeUnlocked, h1, h2, h3, interrupts_empty, h4]
      · left
        simp [q, takeUnlocked, h1, h2, interrupts_empty, h3]
    · left
      simp [q, takeUnlocked, h1, interrupts_empty, h2]
  · left
    simp [q, takeUnlocked, interrupts_empty, h1]

end

/-- Between the calls nothing is queued. -/
structure Quiet (ram : Memory) (s : State) : Prop where
  ram_eq : s.ram = ram
  queue_settled : s.pendingWrites.Settled
  paced : Paced s.accesses

def Action.bytes (ram : Memory) : Action → List Byte
  | .write w => ram.read w.data
  | .completion => []

def Action.waits : Action → List (Wait Coro)
  | .write w => if w.data.size = 0 then [] else [.suspended w.handle, .posted w.handle]
  | .completion => []

/-- A whole call, from one quiet state to the next. -/
theorem step_quiet {ram : Memory} {s : State} (hq : Quiet ram s) {a : Action} (ha : a.Undisturbed) :
    ∃ s', step s a = some s' ∧ Quiet ram s' ∧ sent s'.accesses = sent s.accesses ++ a.bytes ram ∧
      s'.waits = s.waits ++ a.waits := by
  cases a with
  | completion =>
    refine ⟨s, congrArg some (handleTxDmaIsr_empty hq.queue_settled.1), hq, ?_, ?_⟩
    · rw [Action.bytes, List.append_nil]
    · rw [Action.waits, List.append_nil]
  | write w =>
    simp only [step, asyncWrite]
    split
    · rename_i hnone
      refine ⟨s, rfl, hq, ?_, ?_⟩
      · rw [Action.bytes, Memory.read, hnone]
        exact (List.append_nil _).symm
      · rw [Action.waits, if_pos hnone, List.append_nil]
    · rename_i hsome
      obtain ⟨q, hpush, hone⟩ := hq.queue_settled.push ⟨some w.handle, w.data⟩
      have howing : Owing w.handle (s.waits ++ [.suspended w.handle])
          { s with pendingWrites := q, waits := s.waits ++ [.suspended w.handle] } := .inl ⟨w.data, hone, rfl⟩
      have henough : (ram.read w.data).length ≤ w.turns.countP Turn.ready := by
        rw [Memory.read_length]
        exact w.enough
      obtain ⟨s', rest, hs, hso, hsp, hsb, hsr⟩ := send_spec w.turns (ram.read w.data) howing hq.paced henough
      obtain ⟨hsettled, hwaits, haccesses, hram⟩ := handleUnlocked_owing ha hso
      refine ⟨handleUnlocked w.gaps s', ?_, ⟨?_, hsettled, ?_⟩, ?_, ?_⟩
      · rw [awaitSuspend, hpush, startTxDma]
        simp only [hq.ram_eq]
        rw [hq.ram_eq] at hs
        rw [hs, Option.map_some]
      · rw [hram, hsr]
        exact hq.ram_eq
      · rw [haccesses]
        exact hsp
      · rw [haccesses, hsb]
        rfl
      · rw [hwaits, Action.waits, if_neg hsome, List.append_assoc]
        rfl

theorem run_quiet {ram : Memory} {s : State} (hq : Quiet ram s) {actions : List Action}
    (h : ∀ a ∈ actions, a.Undisturbed) :
    ∃ s', actions.foldlM step s = some s' ∧ Quiet ram s' ∧
      sent s'.accesses = sent s.accesses ++ actions.flatMap (Action.bytes ram) ∧
      s'.waits = s.waits ++ actions.flatMap Action.waits := by
  induction actions generalizing s with
  | nil => exact ⟨s, rfl, hq, (List.append_nil _).symm, (List.append_nil _).symm⟩
  | cons a actions ih =>
    obtain ⟨ha, hrest⟩ := List.forall_mem_cons.mp h
    obtain ⟨s', hs, hq', hsent, hwaits⟩ := step_quiet hq ha
    obtain ⟨s'', hs', hq'', hsent', hwaits'⟩ := ih hq' hrest
    refine ⟨s'', ?_, hq'', ?_, ?_⟩
    · rw [List.foldlM_cons, hs]
      exact hs'
    · rw [hsent', hsent, List.flatMap_cons, List.append_assoc]
    · rw [hwaits', hwaits, List.flatMap_cons, List.append_assoc]

/-- The bytes of all writes go out in order, none of them without room in the
FIFO, and every write that has data posts its coroutine exactly once before the
next one begins, however many completion interrupts come in between, as long as
none comes inside the pop that a write makes itself. -/
theorem writes_sent_and_posted (ram : Memory) {actions : List Action} (h : ∀ a ∈ actions, a.Undisturbed) :
    ∃ s, run ram actions = some s ∧ s.pendingWrites.Settled ∧ Paced s.accesses ∧
      sent s.accesses = actions.flatMap (Action.bytes ram) ∧ s.waits = actions.flatMap Action.waits := by
  have hinit : Quiet ram (init ram) := ⟨rfl, ⟨rfl, rfl⟩, .nil⟩
  obtain ⟨s, hs, hq, hsent, hwaits⟩ := run_quiet hinit h
  exact ⟨s, hs, hq.queue_settled, hq.paced, hsent, hwaits⟩

/-- Two bytes, with a completion interrupt before the second one and another
behind the pop. -/
private def greeting : Write where
  turns := [⟨0, 0x20, 0⟩, ⟨1, 0x60, 0⟩]
  gaps := ⟨0, 0, 0, 0, 0, 0, 1⟩
  handle := 7
  data := ⟨0x1000, 2⟩
  enough := by decide

theorem greeting_sent_and_posted :
    (∀ a ∈ [Action.write greeting, .completion, .write greeting], a.Undisturbed) ∧
      ∃ s, run (fun _ => 0x48) [.write greeting, .completion, .write greeting] = some s ∧
        s.waits = [.suspended 7, .posted 7, .suspended 7, .posted 7] := by
  have h : ∀ a ∈ [Action.write greeting, .completion, .write greeting], a.Undisturbed := by
    simp [Action.Undisturbed, greeting]
  obtain ⟨s, hs, -, -, -, hwaits⟩ := writes_sent_and_posted (fun _ => 0x48) h
  exact ⟨h, s, hs, hwaits⟩

/-- A completion interrupt inside the pop, behind the read of the value: the
coroutine is posted twice. -/
example :
    (asyncWrite [⟨0, 0x20, 0⟩] ⟨0, 0, 1, 0, 0, 0, 0⟩ 7 ⟨0x1000, 1⟩ (init fun _ => 0)).map (·.waits) =
      some [.suspended 7, .posted 7, .posted 7] := rfl

end IoProcessor.Hal.UartDma.Transmit
