import Mathlib.Data.List.Forall2
import IoProcessor.Hal.UartDma

/-! The received stream between the register accesses of UartDmaDriver. The
handler is cut into its accesses here, and bytes may arrive before any of them. -/
namespace IoProcessor.Hal.UartDma
open Library MemoryMap History

/-- Where `handle_isr` stands, with the bytes it has taken from the FIFO so far:
before a test of LSR, or behind one that reported data. -/
inductive Core where
  | outside
  | filling (req : ReadRequest) (bytes : List Byte)
  | reading (req : ReadRequest) (bytes : List Byte)
  | flushing (bytes : List Byte)
  | dropping (bytes : List Byte)
  deriving DecidableEq, Repr

def Core.bytes : Core → List Byte
  | .outside => []
  | .filling _ bytes | .reading _ bytes | .flushing bytes | .dropping bytes => bytes

def Core.request : Core → List ReadRequest
  | .filling req _ | .reading req _ => [req]
  | .outside | .flushing _ | .dropping _ => []

/-- What a coroutine finds when it is resumed: the count in its frame, and so
many bytes of its buffer. -/
structure Found where
  bytesReceived : Word
  contents : List Byte
  deriving DecidableEq, Repr

def find (ram : Memory) (req : ReadRequest) : Found :=
  match req.bytesReceived with
  | some address => ⟨ram.load32 address, ram.read ⟨req.buffer.data, ram.load32 address⟩⟩
  | none => ⟨0, []⟩

/-- The driver with the bytes that the line has brought, the accepted reads, and
what each completed one finds. -/
structure Fine where
  state : State
  core : Core
  line : List Byte
  awaited : List ReadRequest
  found : List Found

/-- The end of the read loop: the count is stored and the coroutine posted. -/
def complete (s : State) (req : ReadRequest) (bytes : List Byte) : State :=
  post { s with
    ram := match req.bytesReceived with
      | some address => s.ram.store32 address (BitVec.ofNat 32 bytes.length)
      | none => s.ram
    trace := s.trace ++ [.received req bytes] } req.handle

namespace Fine

inductive Action where
  | arrive (b : Byte)
  | identify (iir : Word)
  | coAwait (h : Coro) (dest : Span) (bytesTransferred : Word)
  | isr
  | proceed
  deriving DecidableEq, Repr

/-- The next access of the handler: a test of LSR or a read of RBR. -/
def proceed (s : Fine) : Fine :=
  match s.core with
  | .outside => s
  | .filling req bytes =>
    if s.state.rxFifo ≠ [] ∧ bytes.length < req.buffer.size.toNat then { s with core := .reading req bytes }
    else
      let state := complete s.state req bytes
      { s with state := state, core := .outside, found := s.found ++ [find state.ram req] }
  | .reading req bytes =>
    let b := s.state.rxFifo.headD 0
    { s with
      state.rxFifo := s.state.rxFifo.tail
      state.ram := s.state.ram.store8 (req.buffer.data + BitVec.ofNat 32 bytes.length) b
      core := .filling req (bytes ++ [b]) }
  | .flushing bytes =>
    if s.state.rxFifo ≠ [] then { s with core := .dropping bytes }
    else { s with state.trace := s.state.trace ++ [.flushed bytes], core := .outside }
  | .dropping bytes =>
    { s with state.rxFifo := s.state.rxFifo.tail, core := .flushing (bytes ++ [s.state.rxFifo.headD 0]) }

/-- Coroutines run while no handler does. -/
def step (s : Fine) : Action → Fine
  | .arrive b => { s with state.rxFifo := s.state.rxFifo ++ [b], line := s.line ++ [b] }
  | .identify iir => { s with state.iir := iir }
  | .coAwait h dest bytesTransferred =>
    if s.core = .outside then
      { s with
        state := awaitSuspend s.state h dest bytesTransferred
        awaited := s.awaited ++ [⟨some h, dest, some bytesTransferred⟩] }
    else s
  | .isr =>
    if s.core = .outside ∧ (s.state.iir &&& 0x0F = 0x04 ∨ s.state.iir &&& 0x0F = 0x0C) then
      match s.state.pendingReads.pop with
      | none => { s with core := .flushing [] }
      | some (req, pendingReads) => { s with state.pendingReads := pendingReads, core := .filling req [] }
    else s
  | .proceed => s.proceed

def init (ram : Memory) : Fine where
  state := UartDma.init ram
  core := .outside
  line := []
  awaited := []
  found := []

abbrev run (ram : Memory) (acts : List Action) : Fine := History.run step (init ram) acts

/-- An await finds room in the queue. -/
def Room (s : Fine) : Action → Prop
  | .coAwait _ _ _ => s.state.pendingReads.toList.length < 8
  | .arrive _ | .identify _ | .isr | .proceed => True

instance (s : Fine) : (a : Action) → Decidable (Room s a)
  | .coAwait _ _ _ => inferInstanceAs (Decidable (s.state.pendingReads.toList.length < 8))
  | .arrive _ | .identify _ | .isr | .proceed => .isTrue trivial

/-- The loop of a read, with no byte between its accesses. -/
private theorem run_filling (req : ReadRequest) (fifo : List Byte) (s : Fine) (bytes : List Byte)
    (ram : Memory) (hs : s.core = .filling req bytes) (hf : s.state.rxFifo = fifo)
    (hr : s.state.ram = ram.store req.buffer.data bytes) (hb : bytes.length ≤ req.buffer.size.toNat) :
    ∃ n, (History.run step s (List.replicate n .proceed)).state =
      complete { s.state with
        rxFifo := fifo.drop (req.buffer.size.toNat - bytes.length)
        ram := ram.store req.buffer.data (bytes ++ fifo.take (req.buffer.size.toNat - bytes.length)) } req
        (bytes ++ fifo.take (req.buffer.size.toNat - bytes.length)) := by
  induction fifo generalizing s bytes with
  | nil =>
    refine ⟨1, ?_⟩
    simp only [List.replicate, History.run_cons, History.run_nil, step, proceed, hs, hf, List.take_nil,
      List.drop_nil, List.append_nil, ← hr]
    simp [← hf]
  | cons b fifo ih =>
    by_cases hl : bytes.length < req.buffer.size.toNat
    · obtain ⟨k, hk⟩ := Nat.exists_eq_add_of_lt hl
      let t : Fine := History.run step s [.proceed, .proceed]
      have ht : t = { s with
          state.rxFifo := fifo
          state.ram := s.state.ram.store8 (req.buffer.data + BitVec.ofNat 32 bytes.length) b
          core := .filling req (bytes ++ [b]) } := by
        simp [t, step, proceed, hs, hf, hl]
      obtain ⟨n, hn⟩ := ih t (bytes ++ [b]) (by rw [ht]) (by rw [ht])
        (by rw [ht, Memory.store_concat _ _ _ (by have := req.buffer.size.isLt; omega), hr]) (by simp; omega)
      refine ⟨2 + n, ?_⟩
      rw [List.replicate_add, History.run_append]
      refine hn.trans ?_
      have hd : req.buffer.size.toNat - bytes.length = k + 1 := by omega
      have hd' : req.buffer.size.toNat - (bytes ++ [b]).length = k := by simp; omega
      rw [hd, hd', ht]
      simp
    · refine ⟨1, ?_⟩
      have hz : req.buffer.size.toNat - bytes.length = 0 := by omega
      simp only [List.replicate, History.run_cons, History.run_nil, step, proceed, hs, hl, and_false, if_false, hz,
        List.take_zero, List.drop_zero, List.append_nil, ← hr, ← hf]

private theorem run_flushing (fifo : List Byte) (s : Fine) (bytes : List Byte) (hs : s.core = .flushing bytes)
    (hf : s.state.rxFifo = fifo) :
    ∃ n, (History.run step s (List.replicate n .proceed)).state =
      { s.state with rxFifo := [], trace := s.state.trace ++ [.flushed (bytes ++ fifo)] } := by
  induction fifo generalizing s bytes with
  | nil =>
    refine ⟨1, ?_⟩
    simp [List.replicate, step, proceed, hs, hf]
  | cons b fifo ih =>
    let t : Fine := History.run step s [.proceed, .proceed]
    have ht : t = { s with state.rxFifo := fifo, core := .flushing (bytes ++ [b]) } := by
      simp [t, step, proceed, hs, hf]
    obtain ⟨n, hn⟩ := ih t (bytes ++ [b]) (by rw [ht]) (by rw [ht])
    refine ⟨2 + n, ?_⟩
    rw [List.replicate_add, History.run_append]
    refine hn.trans ?_
    rw [ht]
    simp

/-- With no byte between its accesses the handler is one step of the coarser
machine. -/
theorem run_isr {s : Fine} (hc : s.core = .outside) :
    ∃ n, (History.run step s (.isr :: List.replicate n .proceed)).state = handleIsr s.state := by
  by_cases hi : s.state.iir &&& 0x0F = 0x04 ∨ s.state.iir &&& 0x0F = 0x0C
  · rcases s.state.pendingReads.pop_cases with ⟨hp, -⟩ | ⟨req, q, hp, -⟩
    · obtain ⟨n, hn⟩ := run_flushing s.state.rxFifo { s with core := .flushing [] } [] rfl rfl
      refine ⟨n, ?_⟩
      rw [History.run_cons, step, if_pos ⟨hc, hi⟩, hp, hn, handleIsr]
      simp only [hi, if_true, hp, List.nil_append]
    · obtain ⟨n, hn⟩ := run_filling req s.state.rxFifo
        { s with state.pendingReads := q, core := .filling req [] } [] s.state.ram rfl rfl
        (funext fun _ => rfl) (Nat.zero_le _)
      refine ⟨n, ?_⟩
      have hmin : s.state.rxFifo.take (min s.state.rxFifo.length req.buffer.size.toNat) =
          s.state.rxFifo.take req.buffer.size.toNat := by
        rw [List.take_eq_take_iff]
        omega
      have hdrop : s.state.rxFifo.drop (min s.state.rxFifo.length req.buffer.size.toNat) =
          s.state.rxFifo.drop req.buffer.size.toNat := by
        rcases Nat.le_total s.state.rxFifo.length req.buffer.size.toNat with hl | hl
        · rw [Nat.min_eq_left hl, List.drop_length, List.drop_of_length_le hl]
        · rw [Nat.min_eq_right hl]
      have hlen : (s.state.rxFifo.take req.buffer.size.toNat).length =
          min s.state.rxFifo.length req.buffer.size.toNat := by rw [List.length_take, Nat.min_comm]
      rw [History.run_cons, step, if_pos ⟨hc, hi⟩, hp, hn, handleIsr]
      cases hr : req.bytesReceived <;>
        simp only [hi, if_true, hp, hr, fill, complete, hmin, hdrop, hlen, List.length_nil, Nat.sub_zero, List.nil_append]
  · refine ⟨0, ?_⟩
    rw [History.run_cons, step, if_neg (fun h => hi h.2), handleIsr]
    simp only [hi, if_false]
    rfl

def suspends (t : List Event) : List Coro := t.filterMap fun | .suspended h => some h | _ => none

def posts (t : List Event) : List Coro := t.filterMap fun | .posted h => some h | _ => none

/-- The completed reads, each with the bytes it took from the FIFO. -/
def receives (t : List Event) : List (ReadRequest × List Byte) :=
  t.filterMap fun | .received req bytes => some (req, bytes) | _ => none

/-- All bytes that were taken from the FIFO, in the order of the events that
took them. -/
def consumed (t : List Event) : List Byte :=
  t.flatMap fun | .received _ bytes | .flushed bytes => bytes | .suspended _ | .posted _ => []

/-- The count of a request is stored outside its buffer. -/
def Apart (req : ReadRequest) : Prop :=
  ∀ address, req.bytesReceived = some address → ∀ k < req.buffer.size.toNat,
    4 ≤ (req.buffer.data + BitVec.ofNat 32 k - address).toNat

/-- A completed read: not more bytes than its buffer has room for, all of which
the coroutine finds there with their count. -/
structure Delivered (r : ReadRequest × List Byte) (f : Found) : Prop where
  fits : r.2.length ≤ r.1.buffer.size.toNat
  count : f.bytesReceived.toNat = r.2.length
  contents : Apart r.1 → f.contents = r.2

/-- The line is what the events took from it, in their order, then what the
handler has in hand and what is still in the FIFO. The accepted reads are the
completed ones, posted once each, then the one in hand and those that are queued.
A flush finds every read completed. -/
structure Streamed (s : Fine) : Prop where
  stream : s.line = consumed s.state.trace ++ s.core.bytes ++ s.state.rxFifo
  reads : s.awaited = (receives s.state.trace).map Prod.fst ++ s.core.request ++ s.state.pendingReads.toList
  posted : (posts s.state.trace).map some = (receives s.state.trace).map fun r => r.1.handle
  flushes : AtEvery (fun pre e => ∀ bytes, e = .flushed bytes → suspends pre = posts pre) s.state.trace
  delivered : List.Forall₂ Delivered (receives s.state.trace) s.found

section Concat
variable (t : List Event)

@[simp] theorem suspends_concat (e : Event) :
    suspends (t ++ [e]) = suspends t ++ match e with | .suspended h => [h] | _ => [] := by
  cases e <;> simp [suspends]

@[simp] theorem posts_concat (e : Event) :
    posts (t ++ [e]) = posts t ++ match e with | .posted h => [h] | _ => [] := by
  cases e <;> simp [posts]

@[simp] theorem receives_concat (e : Event) :
    receives (t ++ [e]) = receives t ++ match e with | .received req bytes => [(req, bytes)] | _ => [] := by
  cases e <;> simp [receives]

@[simp] theorem consumed_concat (e : Event) :
    consumed (t ++ [e]) = consumed t ++ match e with | .received _ bytes | .flushed bytes => bytes | _ => [] := by
  cases e <;> simp [consumed]

end Concat

/-- The bytes stored so far are in place. -/
def Stored (ram : Memory) (data : Word) (bytes : List Byte) : Prop :=
  (List.range bytes.length).map (fun k => ram (data + BitVec.ofNat 32 k)) = bytes

/-- What the handler relies on between two accesses. -/
def Core.Holds (s : State) : Core → Prop
  | .outside => True
  | .filling req bytes => bytes.length ≤ req.buffer.size.toNat ∧ Stored s.ram req.buffer.data bytes
  | .reading req bytes =>
    s.rxFifo ≠ [] ∧ bytes.length < req.buffer.size.toNat ∧ Stored s.ram req.buffer.data bytes
  | .flushing _ => s.pendingReads.toList = []
  | .dropping _ => s.rxFifo ≠ [] ∧ s.pendingReads.toList = []

structure Inv (s : Fine) : Prop extends Streamed s where
  awaiters : ∀ req ∈ s.awaited, ∃ h address, req.handle = some h ∧ req.bytesReceived = some address
  suspended : (suspends s.state.trace).map some = s.awaited.map ReadRequest.handle
  core : Core.Holds s.state s.core

variable {s : Fine}

theorem Inv.init (ram : Memory) : Inv (init ram) where
  stream := rfl
  reads := rfl
  posted := rfl
  flushes := by simp [Fine.init, UartDma.init]
  delivered := .nil
  awaiters := by simp [Fine.init]
  suspended := rfl
  core := trivial

theorem Inv.arrive (h : Inv s) (b : Byte) : Inv (step s (.arrive b)) := by
  refine { h with stream := ?_, core := ?_ }
  · simp only [step, h.stream, List.append_assoc]
  · have hc := h.core
    simp only [step]
    cases hs : s.core with
    | outside => trivial
    | filling req bytes => rwa [hs] at hc
    | reading req bytes =>
      rw [hs] at hc
      exact ⟨by simp, hc.2⟩
    | flushing bytes => rwa [hs] at hc
    | dropping bytes =>
      rw [hs] at hc
      exact ⟨by simp, hc.2⟩

theorem Inv.coAwait (h : Inv s) {c : Coro} {dest : Span} {address : Word} (room : Room s (.coAwait c dest address)) :
    Inv (step s (.coAwait c dest address)) := by
  by_cases hc : s.core = .outside
  · simp only [step, if_pos hc]
    have hreads := h.reads
    simp only [hc, Core.request, List.append_nil] at hreads
    rcases s.state.pendingReads.push_cases ⟨some c, dest, some address⟩ with ⟨-, hl⟩ | ⟨q, hp, hq, -⟩
    · exact absurd room (by simp [Room, hl])
    · refine ⟨⟨?_, ?_, ?_, ?_, ?_⟩, ?_, ?_, ?_⟩
      · simpa [awaitSuspend] using h.stream
      · simp [awaitSuspend, hp, hq, hreads, hc, Core.request]
      · simpa [awaitSuspend] using h.posted
      · exact atEvery_concat.mpr ⟨h.flushes, by simp⟩
      · simpa [awaitSuspend] using h.delivered
      · simp only [List.mem_append, List.mem_singleton]
        rintro req (hr | rfl)
        · exact h.awaiters req hr
        · exact ⟨c, address, rfl, rfl⟩
      · simp [awaitSuspend, h.suspended]
      · rw [hc]
        trivial
  · simp only [step, if_neg hc]
    exact h

theorem Inv.isr (h : Inv s) : Inv (step s .isr) := by
  by_cases hc : s.core = .outside ∧ (s.state.iir &&& 0x0F = 0x04 ∨ s.state.iir &&& 0x0F = 0x0C)
  · simp only [step, if_pos hc]
    have hreads := h.reads
    have hstream := h.stream
    simp only [hc.1, Core.request, Core.bytes, List.append_nil] at hreads hstream
    rcases s.state.pendingReads.pop_cases with ⟨hp, hq⟩ | ⟨req, q, hp, hq⟩
    · simp only [hp]
      exact { h with stream := by simpa [Core.bytes], reads := by simpa [Core.request], core := hq }
    · simp only [hp]
      refine { h with stream := by simpa [Core.bytes], reads := ?_, core := ⟨Nat.zero_le _, rfl⟩ }
      simp [Core.request, hreads, hq]
  · simp only [step, if_neg hc]
    exact h

theorem Stored.concat {ram : Memory} {data : Word} {bytes : List Byte} (h : Stored ram data bytes) (b : Byte)
    (hl : bytes.length < 2^32) :
    Stored (ram.store8 (data + BitVec.ofNat 32 bytes.length) b) data (bytes ++ [b]) := by
  rw [Stored, List.length_append, List.length_singleton, List.range_succ, List.map_append, List.map_singleton,
    Memory.store8_self]
  congr 1
  refine Eq.trans (List.map_congr_left ?_) h
  intro k hk
  have hk := List.mem_range.mp hk
  apply Memory.store8_ne
  intro he
  have := congrArg (fun x => (x - data).toNat) he
  simp only [Memory.add_sub_toNat (show k < 2^32 by omega), Memory.add_sub_toNat hl] at this
  omega

/-- The count does not disturb a buffer it is stored outside of. -/
theorem Stored.store32 {ram : Memory} {data : Word} {bytes : List Byte} (h : Stored ram data bytes) {address : Word}
    (v : Word) (ha : ∀ k < bytes.length, 4 ≤ (data + BitVec.ofNat 32 k - address).toNat) :
    Stored (ram.store32 address v) data bytes := by
  refine Eq.trans (List.map_congr_left ?_) h
  intro k hk
  have := ha k (List.mem_range.mp hk)
  rw [Memory.store32, Memory.store, List.getD_eq_getElem?_getD, List.getElem?_eq_none, Option.getD_none]
  rwa [Memory.littleEndian_length]

/-- What the end of the read loop leaves for the coroutine. -/
theorem delivered_complete (s : State) {req : ReadRequest} {bytes : List Byte} {address : Word}
    (ha : req.bytesReceived = some address) (hl : bytes.length ≤ req.buffer.size.toNat)
    (hs : Stored s.ram req.buffer.data bytes) : Delivered (req, bytes) (find (complete s req bytes).ram req) := by
  have hsize := req.buffer.size.isLt
  have hn : (BitVec.ofNat 32 bytes.length).toNat = bytes.length := by
    rw [BitVec.toNat_ofNat, Nat.mod_eq_of_lt (by omega)]
  have hram : (complete s req bytes).ram = s.ram.store32 address (BitVec.ofNat 32 bytes.length) := by
    simp only [complete, post, ha]
  have hfind : find (complete s req bytes).ram req = ⟨BitVec.ofNat 32 bytes.length,
      (s.ram.store32 address (BitVec.ofNat 32 bytes.length)).read ⟨req.buffer.data, BitVec.ofNat 32 bytes.length⟩⟩ := by
    rw [hram]
    simp only [find, ha, Memory.load32_store32]
  rw [hfind]
  refine ⟨hl, hn, ?_⟩
  intro hapart
  have hkeep := hs.store32 (BitVec.ofNat 32 bytes.length) fun k hk => hapart address ha k (by simp only at hk ⊢; omega)
  simp only [Memory.read, hn]
  exact hkeep

/-- A completed read is posted, and it is the one in hand. -/
theorem Inv.complete (h : Inv s) {req : ReadRequest} {bytes : List Byte} (hc : s.core = .filling req bytes) :
    let state := UartDma.complete s.state req bytes
    Inv { s with state := state, core := .outside, found := s.found ++ [find state.ram req] } := by
  intro state
  have hreads := h.reads
  have hstream := h.stream
  have hcore := h.core
  simp only [hc, Core.request, Core.bytes] at hreads hstream
  rw [hc] at hcore
  obtain ⟨c, address, hh, ha⟩ := h.awaiters req (by simp [hreads])
  have htrace : state.trace = s.state.trace ++ [.received req bytes] ++ [.posted c] := by
    simp [state, UartDma.complete, post, hh]
  have hpending : state.pendingReads = s.state.pendingReads := rfl
  have hfifo : state.rxFifo = s.state.rxFifo := rfl
  have hconsumed : consumed state.trace = consumed s.state.trace ++ bytes := by
    rw [htrace, consumed_concat, consumed_concat, List.append_nil]
  have hreceives : receives state.trace = receives s.state.trace ++ [(req, bytes)] := by
    rw [htrace, receives_concat, receives_concat, List.append_nil]
  have hposts : posts state.trace = posts s.state.trace ++ [c] := by
    rw [htrace, posts_concat, posts_concat, List.append_nil]
  have hsuspends : suspends state.trace = suspends s.state.trace := by
    rw [htrace, suspends_concat, suspends_concat, List.append_nil, List.append_nil]
  refine ⟨⟨?_, ?_, ?_, ?_, ?_⟩, h.awaiters, ?_, trivial⟩
  · simp [hconsumed, hfifo, hstream, Core.bytes]
  · simp [hreceives, hpending, hreads, Core.request]
  · simp [hposts, hreceives, h.posted, hh]
  · simp only [htrace, atEvery_concat]
    exact ⟨⟨h.flushes, by simp⟩, by simp⟩
  · simp only [hreceives]
    exact List.rel_append h.delivered (.cons (delivered_complete s.state ha hcore.1 hcore.2) .nil)
  · simp only [hsuspends]
    exact h.suspended

/-- When no read is in hand or queued, every accepted one has been posted. -/
theorem Inv.all_posted (h : Inv s) (hr : s.core.request = []) (hq : s.state.pendingReads.toList = []) :
    suspends s.state.trace = posts s.state.trace := by
  have hs := h.suspended
  rw [h.reads, hr, hq, List.append_nil, List.append_nil, List.map_map] at hs
  exact List.map_injective_iff.mpr (Option.some_injective _) (hs.trans h.posted.symm)

/-- The end of a flush. -/
theorem Inv.flushed (h : Inv s) {bytes : List Byte} (hc : s.core = .flushing bytes) :
    Inv { s with state.trace := s.state.trace ++ [.flushed bytes], core := .outside } := by
  have hreads := h.reads
  have hstream := h.stream
  have hcore := h.core
  rw [hc] at hreads hstream hcore
  have hall := h.all_posted (by simp [hc, Core.request]) hcore
  refine ⟨⟨?_, ?_, ?_, ?_, ?_⟩, h.awaiters, ?_, trivial⟩
  · simpa [Core.bytes] using hstream
  · simpa [Core.request] using hreads
  · simpa using h.posted
  · exact atEvery_concat.mpr ⟨h.flushes, fun _ _ => hall⟩
  · simpa using h.delivered
  · simpa using h.suspended

theorem Inv.proceed (h : Inv s) : Inv s.proceed := by
  have hreads := h.reads
  have hstream := h.stream
  have hcore := h.core
  cases hc : s.core with
  | outside =>
    rw [Fine.proceed, hc]
    exact h
  | filling req bytes =>
    by_cases hl : s.state.rxFifo ≠ [] ∧ bytes.length < req.buffer.size.toNat
    · simp only [Fine.proceed, hc, if_pos hl]
      rw [hc] at hreads hstream hcore
      exact { h with stream := hstream, reads := hreads, core := ⟨hl.1, hl.2, hcore.2⟩ }
    · simp only [Fine.proceed, hc, if_neg hl]
      exact h.complete hc
  | reading req bytes =>
    rw [hc] at hreads hstream hcore
    obtain ⟨b, rest, hf⟩ := List.exists_cons_of_ne_nil hcore.1
    have hsize := req.buffer.size.isLt
    have hlen := hcore.2.1
    simp only [Fine.proceed, hc, hf, List.headD_cons, List.tail_cons]
    refine { h with stream := ?_, reads := hreads, core := ⟨?_, hcore.2.2.concat b (by omega)⟩ }
    · simpa [Core.bytes, hf] using hstream
    · rw [List.length_append, List.length_singleton]
      omega
  | flushing bytes =>
    rw [hc] at hreads hstream hcore
    by_cases hf : s.state.rxFifo ≠ []
    · simp only [Fine.proceed, hc, if_pos hf]
      exact { h with stream := hstream, reads := hreads, core := ⟨hf, hcore⟩ }
    · simp only [Fine.proceed, hc, if_neg hf]
      exact h.flushed hc
  | dropping bytes =>
    rw [hc] at hreads hstream hcore
    obtain ⟨b, rest, hf⟩ := List.exists_cons_of_ne_nil hcore.1
    simp only [Fine.proceed, hc, hf, List.headD_cons, List.tail_cons]
    refine { h with stream := ?_, reads := hreads, core := hcore.2 }
    simpa [Core.bytes, hf] using hstream

theorem Inv.step (h : Inv s) {a : Action} (room : Room s a) : Inv (s.step a) := by
  cases a with
  | arrive b => exact h.arrive b
  | identify iir => exact { h with }
  | coAwait c dest address => exact h.coAwait room
  | isr => exact h.isr
  | proceed => exact h.proceed

/-- Reads receive the stream of the line, in every run whose awaits find room in
the queue. -/
theorem stream_delivered (ram : Memory) (acts : List Action) (h : Along step Room (init ram) acts) :
    Streamed (run ram acts) := by
  have keep (s : Fine) (a : Action) (hs : Inv s) (ha : Room s a) : Inv (s.step a) := hs.step ha
  exact (run_invariant_along keep (.init ram) h).toStreamed

/-- A byte that nobody waits for, then three for two short reads, the second of
which has no room. -/
private def shortReads : List Action :=
  [.identify 0x04, .arrive 1, .isr, .proceed, .proceed, .proceed,
    .coAwait 1 ⟨0x07150000, 2⟩ 0x07150010, .coAwait 2 ⟨0x07150020, 0⟩ 0x07150030,
    .arrive 2, .isr, .proceed, .arrive 3, .proceed, .proceed, .arrive 4, .proceed, .proceed, .isr, .proceed]

theorem stream_delivered_short_reads :
    let s := run (fun _ => 0) shortReads
    s.found = [⟨2, [2, 3]⟩, ⟨0, []⟩] ∧ s.state.rxFifo = [4] ∧ Streamed s :=
  ⟨by decide, by decide, stream_delivered (fun _ => 0) shortReads (by decide)⟩

end Fine
end IoProcessor.Hal.UartDma
