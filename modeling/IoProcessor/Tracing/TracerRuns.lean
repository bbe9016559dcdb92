import IoProcessor.Tracing.Packets

/-! The tracer keeps its log in the buffer: what a reader finds in the packets,
and what the tracer writes to. -/
namespace IoProcessor.Tracing
open Library Memory History Hal.HardwareTimer Batches

def Buffer.Outside (b : Buffer) (x : Word) : Prop := x.toNat < b.data.toNat ∨ b.data.toNat + b.size.toNat ≤ x.toNat

/-- The context and its memory hold the log, and the rest of the memory is as it
was. -/
structure Represents (b : Buffer) (original : Memory) (m : Machine) (log : Log) : Prop where
  buf : m.ctx.buf = b.data
  bufSize : m.ctx.bufSize = b.size
  bufPos : m.ctx.bufPos = BitVec.ofNat 32 (36 + used log.current)
  packetSeq : m.ctx.packetSeq = BitVec.ofNat 32 log.packets.length
  start : m.ctx.packetStartTime = log.start
  access : m.access = log.access
  room : used log.current ≤ b.capacity
  body : ((m.memory.read b.span).drop 36).take (used log.current) = log.current.flatMap Record.codec.encode
  flushed : m.flushed.map readPacket = log.packets.map some
  frame : ∀ x, b.Outside x → m.memory x = original x

section
variable {c : Cycles} {b : Buffer} {original : Memory} {m : Machine} {log : Log}

theorem littleEndian_setWidth {w : Nat} (n : Nat) (v : BitVec w) :
    littleEndian n (v.setWidth (8*n)) = littleEndian n v := by
  apply List.map_congr_left
  intro i hi
  rw [List.mem_range] at hi
  apply BitVec.eq_of_getLsbD_eq
  intro j hj
  simp only [BitVec.getLsbD_extractLsb', BitVec.getLsbD_setWidth, hj, decide_true, Bool.true_and]
  rw [decide_eq_true (show 8*i + j < 8*n by omega), Bool.true_and]

theorem used_none : used [] = 0 := rfl

/-- The window up to a record that has room in it. -/
theorem Represents.split (h : Represents b original m log) (hroom : 36 + used log.current ≤ b.size.toNat) :
    ∃ head tail, head.length = 36 ∧
      m.memory.read b.span = head ++ log.current.flatMap Record.codec.encode ++ tail := by
  have hlen : (m.memory.read b.span).length = b.size.toNat := read_length _ _
  refine ⟨(m.memory.read b.span).take 36, ((m.memory.read b.span).drop 36).drop (used log.current), ?_, ?_⟩
  · rw [List.length_take]
    omega
  · rw [← h.body, List.append_assoc, List.take_append_drop, List.take_append_drop]

theorem Represents.bufPos_toNat (h : Represents b original m log) : m.ctx.bufPos.toNat = 36 + used log.current := by
  have hroom := h.room
  have hbits := b.bits
  have hcapacity : b.capacity = b.size.toNat - 36 := rfl
  rw [h.bufPos, BitVec.toNat_ofNat, Nat.mod_eq_of_lt (by omega)]

theorem frame_store (h : ∀ x, b.Outside x → m.memory x = original x) {n : Nat} {bytes : List Byte}
    (hn : n + bytes.length ≤ b.size.toNat) {x : Word} (hx : b.Outside x) :
    m.memory.store (b.data + BitVec.ofNat 32 n) bytes x = original x := by
  have hfits := b.fits
  by_cases hbytes : bytes = []
  · rw [hbytes, store_nil, h x hx]
  · have hpos := List.length_pos_iff.mpr hbytes
    have haddr : (b.data + BitVec.ofNat 32 n).toNat = b.data.toNat + n := toNat_add_small (by omega)
    rw [← h x hx]
    unfold Buffer.Outside at hx
    refine store_outside ?_ ?_
    · rw [haddr]
      omega
    · rw [haddr]
      omega

theorem header_copies (h : Represents b original m log) (timestampEnd : BitVec 64) :
    m.memory.copyAll m.ctx.buf
      [(0, littleEndian 4 ctfMagic), (4, littleEndian 4 (0 : Word)), (8, littleEndian 4 (m.ctx.bufSize * 8)),
        (12, littleEndian 4 (m.ctx.bufPos * 8)), (16, littleEndian 8 m.ctx.packetStartTime),
        (24, littleEndian 8 timestampEnd), (32, littleEndian 4 m.ctx.packetSeq)] =
      m.memory.store (b.data + BitVec.ofNat 32 0) (PacketHeader.codec.encode (log.header b timestampEnd)) := by
  rw [h.buf, h.bufSize, h.bufPos, h.packetSeq, h.start]
  refine (copyAll_eq_store m.memory b.data ?_ ?_).trans rfl
  · simp only [Adjoining, littleEndian_length, and_true]
    decide
  · simp [littleEndian_length]

theorem Represents.contentSize (h : Represents b original m log) (e : BitVec 64) :
    (log.header b e).contentSize.toNat = (sizeofPacketHeader.toNat + used log.current) * 8 := by
  have hroom := h.room
  have hbits := b.bits
  have hcapacity : b.capacity = b.size.toNat - 36 := rfl
  have hs : sizeofPacketHeader.toNat = 36 := rfl
  simp only [Log.header, BitVec.toNat_mul, BitVec.toNat_ofNat, hs, show (8 : Word).toNat = 8 from rfl]
  omega

/-- With its header in front the buffer is a packet of the records. -/
theorem Represents.readPacket (h : Represents b original m log) (hroom : 36 + used log.current ≤ b.size.toNat)
    (e : BitVec 64) :
    readPacket ((m.memory.store (b.data + BitVec.ofNat 32 0) (PacketHeader.codec.encode (log.header b e))).read b.span) =
      some ⟨log.header b e, log.current⟩ := by
  obtain ⟨head, tail, hhead, hcontents⟩ := h.split hroom
  have hold : m.memory.read b.span = [] ++ head ++ (log.current.flatMap Record.codec.encode ++ tail) := by
    rw [hcontents, List.nil_append, List.append_assoc]
  have hnew := read_store_within m.memory b.span hold ((PacketHeader.encode_length (log.header b e)).trans hhead.symm)
  rw [List.length_nil, List.nil_append, show b.span.data = b.data from rfl] at hnew
  rw [hnew]
  exact readPacket_encode rfl (h.contentSize e) tail

/-- Closing the log is what a flush does to it. -/
theorem Represents.flushPacket (h : Represents b original m log) :
    Represents b original (flushPacket c m) (log.close c b) := by
  have hpos := h.bufPos_toNat
  have hcapacity : b.capacity = b.size.toNat - 36 := rfl
  have hroom := h.room
  have hs : sizeofPacketHeader.toNat = 36 := rfl
  rw [Tracing.flushPacket, Log.close]
  by_cases hc : log.current = []
  · have hle : m.ctx.bufPos ≤ sizeofPacketHeader := by
      rw [BitVec.le_def, hpos, hc, used_none]
      exact le_of_eq hs.symm
    rw [if_pos hle, hc]
    exact h
  · have hused : 0 < used log.current := used_pos (by simpa using hc)
    have hlt : ¬ m.ctx.bufPos ≤ sizeofPacketHeader := by
      rw [BitVec.le_def, hpos, hs]
      omega
    rw [if_neg hlt, if_neg (by simpa using hc), h.access]
    generalize getNs c log.access = reading
    obtain ⟨timestampEnd, k⟩ := reading
    simp only [header_copies h timestampEnd]
    generalize getNs c k = reading
    obtain ⟨now, k⟩ := reading
    have hpacket := h.readPacket (by omega) timestampEnd
    constructor
    case buf => exact h.buf
    case bufSize => exact h.bufSize
    case bufPos => rw [used_none]; rfl
    case packetSeq =>
      rw [h.packetSeq, List.length_append, List.length_singleton, BitVec.ofNat_add]
      rfl
    case start => rfl
    case access => rfl
    case room => exact Nat.zero_le _
    case body => rw [used_none, List.take_zero, List.flatMap_nil]
    case flushed =>
      rw [h.buf, h.bufSize, List.map_append, List.map_append, h.flushed, List.map_singleton, List.map_singleton]
      rw [Buffer.span] at hpacket
      rw [hpacket]
    case frame =>
      intro x hx
      exact frame_store h.frame (by rw [PacketHeader.encode_length]; omega) hx

theorem Represents.ensureSpace (h : Represents b original m log) {len : Word} (hpos : 0 < len.toNat)
    (hlen : len.toNat ≤ 20) :
    Represents b original (ensureSpace c m len).1 (log.makeRoom c b len.toNat) ∧
      ((ensureSpace c m len).2 = true ↔ used (log.makeRoom c b len.toNat).current + len.toNat ≤ b.capacity) := by
  have hbits := b.bits
  have hcapacity : b.capacity = b.size.toNat - 36 := rfl
  have hend {m : Machine} {log : Log} (h : Represents b original m log) :
      (m.ctx.bufPos + len).toNat = 36 + used log.current + len.toNat ∧ m.ctx.bufSize.toNat = b.size.toNat := by
    have hroom := h.room
    rw [BitVec.toNat_add, h.bufPos_toNat, h.bufSize, Nat.mod_eq_of_lt (by omega)]
    exact ⟨rfl, rfl⟩
  have hafter : Represents b original (if m.ctx.bufSize < m.ctx.bufPos + len then Tracing.flushPacket c m else m)
      (log.makeRoom c b len.toNat) := by
    obtain ⟨hsum, hsize⟩ := hend h
    rw [Log.makeRoom]
    split
    · rename_i hlt
      rw [BitVec.lt_def, hsum, hsize] at hlt
      rw [if_pos (by omega)]
      exact h.flushPacket
    · rename_i hge
      rw [BitVec.lt_def, hsum, hsize] at hge
      rw [if_neg (by omega)]
      exact h
  refine ⟨hafter, ?_⟩
  obtain ⟨hsum, hsize⟩ := hend hafter
  rw [Tracing.ensureSpace, decide_eq_true_iff, BitVec.le_def, hsum, hsize]
  omega

/-- A trace function puts its event into the log when its copies are the bytes
of the record. -/
theorem Represents.traceEvent (h : Represents b original m log) {space size : Word} {evId : EventId}
    {payload : List (Word × List Byte)} (e : Event) (hspace : space.toNat = e.space)
    (hsize : size = BitVec.ofNat 32 e.size) (hadjoin : Adjoining 9 payload)
    (hbytes : ∀ time, Record.codec.encode ⟨time, e⟩ = evId.code :: (littleEndian 8 time ++ payload.flatMap (·.2))) :
    Represents b original (traceEvent c m space evId payload size) (log.put c b e) := by
  have hbits := b.bits
  have hcapacity : b.capacity = b.size.toNat - 36 := rfl
  have hasked : e.size ≤ e.space := eventSizes.taken_le_asked e
  have hasks : 0 < e.space ∧ e.space ≤ 20 := by cases e <;> simp [Event.space]
  obtain ⟨hroomed, hroom⟩ := h.ensureSpace (c := c) (hspace ▸ hasks.1) (hspace ▸ hasks.2)
  rw [hspace] at hroomed hroom
  rw [Tracing.traceEvent, Log.put]
  generalize Tracing.ensureSpace c m space = ensured at hroomed hroom
  obtain ⟨m, room⟩ := ensured
  generalize log.makeRoom c b e.space = log at hroomed hroom
  simp only at hroomed hroom ⊢
  cases room with
  | false =>
    rw [if_neg (fun hle => Bool.false_ne_true (hroom.mpr hle))]
    exact hroomed
  | true =>
    have hfree := hroom.mp rfl
    rw [if_pos hfree, hroomed.access]
    generalize getNs c log.access = reading
    obtain ⟨now, k⟩ := reading
    obtain ⟨head, tail, hhead, hcontents⟩ := hroomed.split (by omega)
    have hlen : (Record.codec.encode ⟨now, e⟩).length = e.size := Record.encode_length _
    have hcopies : m.memory.copyAll (m.ctx.buf + m.ctx.bufPos)
        ((0, [evId.code]) :: (1, littleEndian 8 now) :: payload) =
          m.memory.store (b.data + BitVec.ofNat 32 (36 + used log.current)) (Record.codec.encode ⟨now, e⟩) := by
      have hflat : ((0, [evId.code]) :: (1, littleEndian 8 now) :: payload).flatMap (·.2) =
          Record.codec.encode ⟨now, e⟩ := by rw [hbytes]; rfl
      have hadjoins : Adjoining 0 ((0, [evId.code]) :: (1, littleEndian 8 now) :: payload) :=
        ⟨rfl, rfl, hadjoin⟩
      rw [copyAll_eq_store _ _ hadjoins (by rw [hflat, hlen]; omega), hflat, hroomed.buf, hroomed.bufPos]
      simp only [BitVec.add_zero]
    have hused : used (log.current ++ [⟨now, e⟩]) = used log.current + e.size := by
      rw [used, List.map_append]
      exact used_concat _ _
    have htail : e.size ≤ tail.length := by
      have htotal : (m.memory.read b.span).length = b.size.toNat := read_length _ _
      rw [hcontents, List.length_append, List.length_append, hhead, encode_records_length] at htotal
      omega
    have hwindow : m.memory.read b.span = (head ++ log.current.flatMap Record.codec.encode) ++ tail.take e.size ++
        tail.drop e.size := by
      rw [hcontents, List.append_assoc _ (tail.take e.size), List.take_append_drop]
    have hnew := read_store_within m.memory b.span hwindow
      (hlen.trans (by rw [List.length_take]; omega : e.size = (tail.take e.size).length))
    rw [List.length_append, hhead, encode_records_length, show b.span.data = b.data from rfl] at hnew
    simp only [Bool.not_true, Bool.false_eq_true, if_false, hcopies]
    constructor
    case buf => exact hroomed.buf
    case bufSize => exact hroomed.bufSize
    case bufPos =>
      rw [hroomed.bufPos, hsize, hused, ← BitVec.ofNat_add, Nat.add_assoc]
    case packetSeq => exact hroomed.packetSeq
    case start => exact hroomed.start
    case access => rfl
    case room =>
      rw [hused]
      omega
    case body =>
      rw [hnew, hused, List.flatMap_append, List.flatMap_singleton, List.append_assoc, List.append_assoc,
        List.drop_left' hhead, ← List.append_assoc]
      apply List.take_left'
      rw [List.length_append, encode_records_length, hlen]
    case flushed => exact hroomed.flushed
    case frame =>
      intro x hx
      exact frame_store hroomed.frame (by rw [hlen]; omega) hx

/-- Each call does to the log what it says. -/
theorem Represents.step (h : Represents b original m log) (call : Call) :
    Represents b original (step c m call) (log.step c b call) := by
  cases call with
  | flush => exact h.flushPacket
  | taskSwitch taskId state =>
    refine h.traceEvent (.taskSwitch (taskId.setWidth 16) (state.setWidth 8)) rfl rfl ⟨rfl, rfl, trivial⟩ fun time => ?_
    rw [← littleEndian_setWidth 2 taskId, ← littleEndian_setWidth 1 state]
    rfl
  | spiTransfer csId len durationNs =>
    refine h.traceEvent (.spiTransfer (csId.setWidth 8) len durationNs) rfl rfl ⟨rfl, rfl, rfl, trivial⟩ fun time => ?_
    rw [← littleEndian_setWidth 1 csId]
    rfl
  | uartFrame len timeoutUs =>
    exact h.traceEvent (.uartFrame len timeoutUs) rfl rfl ⟨rfl, rfl, trivial⟩ fun time => rfl

end

theorem init_represents (c : Cycles) (b : Buffer) (memory : Memory) (access : Nat) :
    Represents b memory (init c memory access b.data b.size) (Log.empty c access) := by
  rw [init, Log.empty]
  generalize getNs c access = reading
  obtain ⟨now, k⟩ := reading
  exact ⟨rfl, rfl, rfl, rfl, rfl, rfl, Nat.zero_le _, by rw [used_none, List.take_zero, List.flatMap_nil], rfl,
    fun _ _ => rfl⟩

/-- The tracer runs as its log does. -/
theorem run_represents (c : Cycles) {b : Buffer} {original : Memory} {m : Machine} {log : Log}
    (h : Represents b original m log) (calls : List Call) :
    Represents b original (run (step c) m calls) (run (Log.step c b) log calls) := by
  induction calls generalizing m log with
  | nil => exact h
  | cons call calls ih => exact ih (h.step call)

end IoProcessor.Tracing
