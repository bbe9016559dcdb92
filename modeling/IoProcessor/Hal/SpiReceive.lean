import IoProcessor.Hal.SpiSerial

/-! What the receive FIFO carries from one SPI transfer into the next. A
transfer runs as many bursts as the longer of its two spans has bytes, and its
interrupt reads only as many bytes as the receive span has. -/
namespace IoProcessor.Hal.SpiDma
open Library MemoryMap History

/-- The bytes given to a transfer were received during it, and it starts with
an empty receive FIFO. -/
def OwnBytes (pre : List Event) : Event → Prop
  | .started _ _ leftover => leftover = []
  | .stored _ _ bytes => ∀ b ∈ bytes, b.exchange = (startedOf pre).length
  | _ => True

instance (pre : List Event) : (e : Event) → Decidable (OwnBytes pre e)
  | .started _ _ leftover => inferInstanceAs (Decidable (leftover = []))
  | .stored _ _ bytes => inferInstanceAs (Decidable (∀ b ∈ bytes, b.exchange = (startedOf pre).length))
  | .suspended _ _ | .pushed _ _ | .completed _ _ | .posted _ _ _ => .isTrue trivial

/-- A transfer that asks for at least as many bytes as it sends. -/
def TransferRequest.Drained (r : TransferRequest) : Prop := r.txData.size ≤ r.rxData.size

instance (r : TransferRequest) : Decidable r.Drained :=
  inferInstanceAs (Decidable (r.txData.size ≤ r.rxData.size))

/-- Bytes left in the FIFO by a transfer that found it empty. -/
def TransferRequest.surplus (r : TransferRequest) : Nat := r.txData.size.toNat - r.rxData.size.toNat

theorem TransferRequest.surplus_eq_zero {r : TransferRequest} : r.surplus = 0 ↔ r.Drained := by
  unfold surplus Drained
  rw [BitVec.le_def]
  omega

theorem Controller.mbc_startTransfer (c : Controller) (ram : Memory) (tx : Span) (n : Word) :
    (c.startTransfer ram tx n).mbc.toNat = max tx.size.toNat n.toNat := by
  simp only [startTransfer, BitVec.lt_def, gt_iff_lt]
  split <;> omega

/-- All transfers but the newest have emptied the FIFO behind them. -/
def Bus.Emptied (b : Bus) : Prop := ∀ r ∈ (startedOf b.history).dropLast, r.Drained

/-- What holds with no exchange on the way: the FIFO has the surplus of the
newest transfer, unless an earlier one left something too. -/
structure Bus.Resting (b : Bus) : Prop where
  clean : AtEvery OwnBytes b.history ↔ b.Emptied
  exchanges : b.regs.exchanges = (startedOf b.history).length
  surplus : b.Emptied → b.regs.rxFifo.length = ((startedOf b.history).getLast?.map (·.surplus)).getD 0

/-- The FIFO over the life of a bus: as above while idle, empty before the end
of an exchange, and one tagged byte for each burst after it. -/
structure Bus.Fifo (b : Bus) : Prop where
  clean : AtEvery OwnBytes b.history ↔ b.Emptied
  exchanges : b.regs.exchanges = (startedOf b.history).length
  mbc : b.busy = true → b.regs.mbc.toNat = max b.active.txData.size.toNat b.active.rxData.size.toNat
  idle : b.busy = false → b.Resting
  running : b.Emptied → b.busy = true → b.regs.tc = false → b.regs.rxFifo = []
  received : b.Emptied → b.regs.tc = true →
    b.regs.rxFifo.length = max b.active.txData.size.toNat b.active.rxData.size.toNat ∧
      ∀ x ∈ b.regs.rxFifo, x.exchange = (startedOf b.history).length

theorem Bus.fifo_init (ram : Memory) (i : Instance) : (busOf (init ram) i).Fifo := by
  have hr : (busOf (init ram) i).Resting := by
    constructor <;> simp [busOf, init, historyOf, Controller.initial, Bus.Emptied]
  constructor
  case idle => exact fun _ => hr
  all_goals simp [busOf, init, historyOf, Controller.initial, Controller.tc, Bus.Emptied]

/-- Events that neither start a transfer nor fill a buffer leave the question
of whose bytes were stored as it was. -/
private theorem ownBytes_append {t u : List Event} (h : ∀ e ∈ u, ∀ pre, OwnBytes pre e) :
    AtEvery OwnBytes (t ++ u) ↔ AtEvery OwnBytes t :=
  ⟨fun ht => (atEvery_append.mp ht).1, fun ht => ht.append h⟩

/-- Such events, and changes to the queue, keep the invariant. -/
private theorem Bus.Fifo.congr {b c : Bus} {u : List Event} (h : b.Fifo) (hr : c.regs = b.regs)
    (hb : c.busy = b.busy) (ha : c.active = b.active) (ht : c.history = b.history ++ u)
    (hs : startedOf u = []) (hu : ∀ e ∈ u, ∀ pre, OwnBytes pre e) : c.Fifo := by
  have hstart : startedOf c.history = startedOf b.history := by simp [ht, hs]
  have hown : AtEvery OwnBytes c.history ↔ AtEvery OwnBytes b.history := by rw [ht, ownBytes_append hu]
  have hemp : c.Emptied ↔ b.Emptied := by rw [Bus.Emptied, Bus.Emptied, hstart]
  obtain ⟨hc, he, hm, hi, hrun, hrec⟩ := h
  refine ⟨by rw [hown, hemp, hc], by rw [hr, hstart, he], by rw [hb, hr, ha]; exact hm, ?_, ?_, ?_⟩
  · intro hidle
    obtain ⟨-, -, hsur⟩ := hi (hb ▸ hidle)
    exact ⟨by rw [hown, hemp, hc], by rw [hr, hstart, he], by rw [hemp, hr, hstart]; exact hsur⟩
  · rw [hemp, hb, hr]
    exact hrun
  · rw [hemp, hr, ha, hstart]
    exact hrec

theorem Bus.Fifo.receive {base : Word} {b : Bus} (h : b.Fifo) (tc : b.regs.tc = true)
    (hlast : (startedOf b.history).getLast? = some b.active) : (b.receive base).Resting := by
  obtain ⟨hc, he, -, -, -, hrec⟩ := h
  have hstart : startedOf (b.receive base).history = startedOf b.history := by simp [Bus.receive]
  have hemp : (b.receive base).Emptied ↔ b.Emptied := by rw [Bus.Emptied, Bus.Emptied, hstart]
  have hlen (hb : b.Emptied) : b.active.rxData.size.toNat ≤ (b.regs.writeIsr tcFlag).rxFifo.length := by
    have := (hrec hb tc).1
    simp only [Controller.writeIsr, this]
    omega
  refine ⟨?_, ?_, fun hb => ?_⟩
  · rw [hemp, Bus.receive, atEvery_concat, hc, and_iff_left_iff_imp]
    intro hb x hx
    rw [Controller.drain_fst (hlen hb)] at hx
    exact (hrec hb tc).2 x (List.mem_of_mem_take hx)
  · rw [hstart, ← he]
    simp [Bus.receive, Controller.drain_snd, Controller.writeIsr]
  · rw [hstart, hlast]
    have := (hrec (hemp.mp hb) tc).1
    simp only [Bus.receive, Controller.drain_snd, Controller.writeIsr, List.length_drop, this,
      Option.map_some, Option.getD_some, TransferRequest.surplus]
    omega

theorem Bus.Resting.launch {base : Word} {b : Bus} (h : b.Resting) (tc : b.regs.tc = false) (ram : Memory)
    (req : TransferRequest) (rest : List TransferRequest) : (b.launch base ram req rest).Fifo := by
  obtain ⟨hc, he, hsur⟩ := h
  have hstart : startedOf (b.launch base ram req rest).history = startedOf b.history ++ [req] := by
    simp [Bus.launch]
  have hemp : (b.launch base ram req rest).Emptied ↔ b.Emptied ∧ b.regs.rxFifo = [] := by
    rw [Bus.Emptied, hstart, List.dropLast_concat, ← List.length_eq_zero_iff]
    rcases (startedOf b.history).eq_nil_or_concat with hn | ⟨init, last, hn⟩
    · simp_all [Bus.Emptied]
    · rw [List.concat_eq_append] at hn
      simp only [Bus.Emptied, hn, List.dropLast_concat, List.getLast?_concat, Option.map_some,
        Option.getD_some] at hsur ⊢
      simp only [List.forall_mem_append, List.forall_mem_singleton]
      refine and_congr_right fun hi => ?_
      rw [hsur hi, TransferRequest.surplus_eq_zero]
  refine ⟨?_, ?_, fun _ => Controller.mbc_startTransfer _ _ _ _, ?_, fun hb _ _ => (hemp.mp hb).2, ?_⟩
  · rw [hemp, ← hc]
    exact atEvery_concat
  · rw [hstart, List.length_append, ← he]
    rfl
  · intro hb
    cases hb
  · intro _ ht
    exact absurd (tc.symm.trans ht) (by simp)

theorem Bus.Resting.toIdle {b : Bus} (h : b.Resting) (tc : b.regs.tc = false) :
    { b with busy := false, active := default }.Fifo := by
  refine ⟨h.clean, h.exchanges, ?_, fun _ => ⟨h.clean, h.exchanges, h.surplus⟩, ?_, ?_⟩
  · intro hb
    cases hb
  · intro _ hb
    cases hb
  · intro _ ht
    exact absurd (tc.symm.trans ht) (by simp)

theorem Bus.Fifo.post {base : Word} {b : Bus} (h : b.Fifo) (req : TransferRequest) : (b.post base req).Fifo := by
  unfold Bus.post
  split
  · exact h.congr rfl rfl rfl rfl rfl (by simp [OwnBytes])
  · exact h

theorem BusStep.fifo {base : Word} {b c : Bus} (hs : BusStep base b c) (hser : b.Serial) (h : b.Fifo) :
    c.Fifo := by
  have hlast (tc : b.regs.tc = true) : (startedOf b.history).getLast? = some b.active := by
    have hb : b.busy = true := by
      by_contra hb
      simp [(hser.idle (by simpa using hb)).2.1] at tc
    simp [hser.started, hb]
  have tcReceive : (b.receive base).regs.tc = false := by simp [Bus.receive]
  cases hs with
  | rejected c full => exact h.congr rfl rfl rfl rfl rfl (by simp [OwnBytes])
  | accepted c tx rx room => exact h.congr rfl rfl rfl rfl rfl (by simp [OwnBytes])
  | leftWaiting hw => exact h.congr rfl rfl rfl (List.append_nil _).symm rfl (by simp)
  | @startedIdle ram req rest idle hq =>
    have hl : (b.launch base ram req rest).Fifo := (h.idle idle).launch (hser.idle idle).2.1 ram req rest
    exact hl.congr rfl rfl rfl (List.append_nil _).symm rfl (by simp)
  | @exchanged req bytes hw running hl =>
    obtain ⟨hc, he, hm, -, hrun, -⟩ := h
    have hb : b.busy = true := by
      by_contra hb
      simp [hser.wire, hb] at hw
    have hown : AtEvery OwnBytes (b.history ++ [.completed base req]) ↔ AtEvery OwnBytes b.history :=
      ownBytes_append (by simp [OwnBytes])
    have hstart : startedOf (b.history ++ [.completed base req]) = startedOf b.history := by simp
    refine ⟨?_, ?_, fun _ => hm hb, ?_, ?_, ?_⟩
    · rw [hown, hc, Bus.Emptied, Bus.Emptied, hstart]
    · rw [hstart, ← he]
      rfl
    · intro hi
      exact absurd (hb.symm.trans hi) (by simp)
    · intro _ _ ht
      simp at ht
    · intro hemp _
      rw [Bus.Emptied, hstart] at hemp
      simp only [Controller.finishExchange, hrun hemp hb running, hstart, List.nil_append, List.length_map,
        hl, hm hb, he, List.mem_map, forall_exists_index, and_imp, true_and]
      rintro x v - rfl
      rfl
  | servedLast tc hq => exact ((h.receive tc (hlast tc)).toIdle tcReceive).post _
  | servedNext ram tc hq => exact ((h.receive tc (hlast tc)).launch tcReceive ram _ _).post _

theorem run_fifo {ram : Memory} {acts : List Action} (h : Along step OwnInterrupts (init ram) acts)
    (i : Instance) : (busOf (run ram acts) i).Fifo := by
  have keep (s : State) (a : Action) (hs : Serialised s ∧ (busOf s i).Fifo) (ha : OwnInterrupts s a) :
      Serialised (step s a) ∧ (busOf (step s a) i).Fifo := by
    refine ⟨hs.1.step ha, ?_⟩
    rcases step_bus hs.1.onBus ha i with he | he
    · rw [he]
      exact hs.2
    · exact he.fifo (hs.1.serial i) hs.2
  exact (run_invariant_along keep ⟨serialised_init ram, Bus.fifo_init ram i⟩ h).2

/-- The stored event tells what is in the receive buffer afterwards. -/
theorem receive_fills (s : State) (base : Word) : ∃ bytes : List Received,
    (receive s base).trace = s.trace ++ [.stored base (s.active (instanceFor base)) bytes] ∧
      (receive s base).ram.read (s.active (instanceFor base)).rxData = bytes.map (·.value) := by
  refine ⟨_, rfl, ?_⟩
  apply Memory.read_store
  rw [List.length_map, Controller.drain_length]

/-- Received data stays with its transfer exactly when every transfer before
the newest asked for at least as many bytes as it sent. -/
theorem own_bytes_iff (ram : Memory) (acts : List Action) (h : Along step OwnInterrupts (init ram) acts)
    (i : Instance) :
    let t := historyOf i.base (run ram acts).trace
    AtEvery OwnBytes t ↔ ∀ r ∈ (startedOf t).dropLast, r.txData.size ≤ r.rxData.size :=
  (run_fifo h i).clean

private def readTwice : List Action :=
  [.coAwait spi0Base 1 ⟨0x1000, 1⟩ ⟨0x2000, 2⟩, .start, .exchange spi0Base [0xAA, 0xBB], .isr .spi0,
    .coAwait spi0Base 2 ⟨0x1000, 0⟩ ⟨0x2000, 1⟩, .start, .exchange spi0Base [0xCC], .isr .spi0]

theorem own_bytes_read_twice : AtEvery OwnBytes (historyOf spi0Base (run (fun _ => 0) readTwice).trace) :=
  (own_bytes_iff (fun _ => 0) readTwice (by decide) .spi0).mpr (by decide)

/-- A write of one byte, then a read of one byte on the same bus. -/
private def writeThenRead : List Action :=
  [.coAwait spi0Base 1 ⟨0x1000, 1⟩ ⟨0x2000, 0⟩, .start, .exchange spi0Base [0xEE], .isr .spi0,
    .coAwait spi0Base 2 ⟨0x1000, 0⟩ ⟨0x2000, 1⟩, .start, .exchange spi0Base [0x42], .isr .spi0]

/-- The read gets the byte that came in during the write. -/
theorem write_then_read_gets_stale_byte :
    Along step OwnInterrupts (init fun _ => 0) writeThenRead ∧
      (run (fun _ => 0) writeThenRead).ram 0x2000 = 0xEE ∧
      ¬ AtEvery OwnBytes (historyOf spi0Base (run (fun _ => 0) writeThenRead).trace) := by
  refine ⟨by decide, by decide, by decide⟩

end IoProcessor.Hal.SpiDma
