import IoProcessor.Tracing.TracerRuns

/-! The stream of packets over a whole run of the tracer: every event once, in
order and in time, and no store outside the buffer. -/
namespace IoProcessor.Tracing
open Library Memory History Hal.HardwareTimer Batches

/-- The tracer after some calls. -/
def trace (c : Cycles) (b : Buffer) (memory : Memory) (access : Nat) (calls : List Call) : Machine :=
  run (step c) (init c memory access b.data b.size) calls

/-- The records behind the header that no flush has taken yet. -/
def Machine.pending (m : Machine) : Option (List Record) :=
  Record.codec.decodeAll m.contents.length ((m.contents.drop 36).take (m.ctx.bufPos.toNat - 36))

/-- The header of the packet with a number. -/
structure HeaderFor (b : Buffer) (i : Nat) (p : Packet) : Prop where
  magic : p.header.magic = ctfMagic
  streamId : p.header.streamId = 0
  packetSize : p.header.packetSize.toNat = 8 * b.size.toNat
  contentSize : p.header.contentSize.toNat = 8 * (36 + used p.records)
  packetSeq : p.header.packetSeq = BitVec.ofNat 32 i
  content_fits : 36 + used p.records ≤ b.size.toNat
  records_ne : p.records ≠ []

section
variable {c : Cycles} {b : Buffer}

/-- The log of a run. -/
private def logOf (c : Cycles) (b : Buffer) (access : Nat) (calls : List Call) : Log :=
  run (Log.step c b) (Log.empty c access) calls

private theorem trace_represents (c : Cycles) (b : Buffer) (memory : Memory) (access : Nat) (calls : List Call) :
    Represents b memory (trace c b memory access calls) (logOf c b access calls) :=
  run_represents c (init_represents c b memory access) calls

theorem Represents.pending {original : Memory} {m : Machine} {log : Log} (h : Represents b original m log) :
    m.pending = some log.current := by
  have hcontents : m.contents = m.memory.read b.span := by rw [Machine.contents, h.buf, h.bufSize, Buffer.span]
  have hne (r : Record) : Record.codec.encode r ≠ [] := by
    apply List.ne_nil_of_length_pos
    rw [Record.encode_length]
    exact eventSizes.taken_pos r.event
  have hlen : log.current.length ≤ (m.memory.read b.span).length := by
    have hle : (log.current.map (·.event)).length ≤ used log.current := length_le_used _
    have hroom := h.room
    have hcapacity : b.capacity = b.size.toNat - 36 := rfl
    rw [List.length_map] at hle
    rw [read_length, show b.span.size = b.size from rfl]
    omega
  rw [Machine.pending, hcontents, h.bufPos_toNat, Nat.add_sub_cancel_left, h.body]
  exact Record.codec.decodeAll_encode hne _ hlen

/-- Each packet took its header from the log before it. -/
private def Headed (b : Buffer) (log : Log) : Prop :=
  ∀ i p, log.packets[i]? = some p → ∃ (before : Log) (timestampEnd : BitVec 64),
    before.packets.length = i ∧ before.current = p.records ∧ p.header = before.header b timestampEnd

private theorem Headed.close {log : Log} (h : Headed b log) : Headed b (log.close c b) := by
  rw [Log.close]
  split
  · exact h
  · intro i p hp
    rw [List.getElem?_append] at hp
    split at hp
    · exact h i p hp
    · rename_i hge
      rw [List.getElem?_singleton] at hp
      split at hp
      · rename_i hi
        obtain rfl := Option.some.inj hp
        exact ⟨log, _, by omega, rfl, rfl⟩
      · cases hp

private theorem Headed.put {log : Log} (h : Headed b log) (e : Event) : Headed b (log.put c b e) := by
  have hmade : Headed b (log.makeRoom c b e.space) := by
    rw [Log.makeRoom]
    split
    · exact h.close
    · exact h
  rw [Log.put]
  split
  · exact hmade
  · exact hmade

private theorem Headed.step {log : Log} (h : Headed b log) (call : Call) : Headed b (log.step c b call) := by
  rw [Log.step]
  cases call.event with
  | none => exact h.close
  | some e => exact h.put e

private theorem wellFormed_run (c : Cycles) (b : Buffer) (access : Nat) (calls : List Call) :
    WellFormed eventSizes b.capacity (logOf c b access calls).batches := by
  rw [logOf, Log.batches_run]
  exact WellFormed.empty.run _

private theorem numbered_run (c : Cycles) (b : Buffer) (access : Nat) (calls : List Call) :
    ∀ i p, (logOf c b access calls).packets[i]? = some p → HeaderFor b i p := by
  intro i p hp
  have hheaded : Headed b (logOf c b access calls) :=
    run_invariant (fun _ call h => h.step call) (fun _ _ hp => by cases hp) calls
  obtain ⟨before, timestampEnd, rfl, hcurrent, hheader⟩ := hheaded i p hp
  have hbatch : p.records.map (·.event) ∈ (logOf c b access calls).batches.closed :=
    List.mem_map_of_mem (List.mem_of_getElem? hp)
  have hne := (wellFormed_run c b access calls).closed_ne _ hbatch
  have hused : used p.records ≤ b.capacity := (wellFormed_run c b access calls).closed_le _ hbatch
  have hpos : 0 < used p.records := used_pos hne
  have hbits := b.bits
  have hs : sizeofPacketHeader.toNat = 36 := rfl
  rw [Buffer.capacity, hs] at hused
  refine ⟨by rw [hheader]; rfl, by rw [hheader]; rfl, ?_, ?_, by rw [hheader]; rfl, by omega, by simpa using hne⟩
  · simp only [hheader, Log.header, BitVec.toNat_mul, show (8 : Word).toNat = 8 from rfl]
    omega
  · simp only [hheader, Log.header, hcurrent, BitVec.toNat_mul, BitVec.toNat_ofNat, hs,
      show (8 : Word).toNat = 8 from rfl]
    omega

/-- The events in the packets and behind them are those that were traced, in
order; an event is left out when even an empty packet has no room for it. -/
private theorem events_run (c : Cycles) (b : Buffer) (access : Nat) (calls : List Call) :
    ((logOf c b access calls).packets.flatMap (·.records) ++ (logOf c b access calls).current).map (·.event) =
      (calls.filterMap Call.event).filter fun e => e.space ≤ b.capacity := by
  have hall : (run (Batches.step eventSizes b.capacity) (Log.empty c access).batches (calls.map Call.event)).all = _ :=
    all_run (Log.empty c access).batches (calls.map Call.event)
  have hcalls : (calls.map Call.event).flatMap Option.toList = calls.filterMap Call.event := by
    rw [List.flatMap_map, List.filterMap_eq_flatMap_toList]
  rw [← Log.batches_run c, hcalls] at hall
  rw [List.map_append, List.map_flatMap, List.flatMap_def]
  exact hall

/-- Every packet that a flush leaves is well formed and has the next sequence
number; read one after the other, and with what is pending, they are the events
that were traced. -/
theorem packets_carry_events (c : Cycles) (b : Buffer) (memory : Memory) (access : Nat) (calls : List Call) :
    ∃ (packets : List Packet) (current : List Record),
      (trace c b memory access calls).flushed.map readPacket = packets.map some ∧
      (trace c b memory access calls).pending = some current ∧
      (packets.flatMap (·.records) ++ current).map (·.event) =
        (calls.filterMap Call.event).filter (fun e => e.space ≤ b.capacity) ∧
      ∀ i p, packets[i]? = some p → HeaderFor b i p := by
  have h := trace_represents c b memory access calls
  exact ⟨(logOf c b access calls).packets, (logOf c b access calls).current, h.flushed, h.pending,
    events_run c b access calls, numbered_run c b access calls⟩

/-- The tracer never stores outside its buffer, not even when the buffer is too
small for a header. -/
theorem stores_stay_in_buffer (c : Cycles) (b : Buffer) (memory : Memory) (access : Nat) (calls : List Call) :
    ∀ x, b.Outside x → (trace c b memory access calls).memory x = memory x :=
  (trace_represents c b memory access calls).frame

/-- A counter that stands still. -/
def stopped : Cycles := ⟨fun _ => 0, fun _ _ _ => BitVec.le_refl 0⟩

/-- A buffer without room for a header. -/
def twentyBytes : Buffer := ⟨0x48200000, 20, by decide, by decide⟩

theorem stores_stay_in_twenty_bytes :
    (trace stopped twentyBytes (fun _ => 7) 0 [.taskSwitch 1 2, .flush]).memory 0x48200014 = 7 :=
  stores_stay_in_buffer stopped twentyBytes (fun _ => 7) 0 [.taskSwitch 1 2, .flush] 0x48200014 (.inr (by decide))

end

/-- A cycle counter whose nanoseconds are still 64-bit numbers before they are
divided. -/
structure Clock where
  cycles : Cycles
  inRange : ∀ k, (cycles.value k).toNat * 5 < 2^64

theorem Clock.nanoseconds_toNat (clock : Clock) (k : Nat) :
    (nanoseconds (clock.cycles.value k)).toNat = (clock.cycles.value k).toNat * 5 / 3 := by
  have hrange := clock.inRange k
  rw [nanoseconds, BitVec.toNat_udiv, BitVec.toNat_mul, show (5 : BitVec 64).toNat = 5 from rfl,
    show (3 : BitVec 64).toNat = 3 from rfl, Nat.mod_eq_of_lt hrange]

theorem Clock.nanoseconds_mono (clock : Clock) {j k : Nat} (h : j ≤ k) :
    nanoseconds (clock.cycles.value j) ≤ nanoseconds (clock.cycles.value k) := by
  have hle : (clock.cycles.value j).toNat ≤ (clock.cycles.value k).toNat := clock.cycles.advances j k h
  rw [BitVec.le_def, clock.nanoseconds_toNat, clock.nanoseconds_toNat]
  exact Nat.div_le_div_right (Nat.mul_le_mul_right 5 hle)

/-- The times in a packet, as they stand in it. -/
def Packet.times (p : Packet) : List (BitVec 64) :=
  p.header.timestampBegin :: (p.records.map (·.time) ++ [p.header.timestampEnd])

/-- Times in order, each of them read at an access in between. -/
structure Ordered (c : Cycles) (first last : Nat) (times : List (BitVec 64)) : Prop where
  pairwise : times.Pairwise (· ≤ ·)
  reads : ∀ t ∈ times, ∃ j, first ≤ j ∧ j < last ∧ t = nanoseconds (c.value j)

section
variable {clock : Clock} {first : Nat}

theorem Ordered.append {last : Nat} {times : List (BitVec 64)} (h : Ordered clock.cycles first last times)
    (hfirst : first ≤ last) :
    Ordered clock.cycles first (getNs clock.cycles last).2 (times ++ [(getNs clock.cycles last).1]) := by
  obtain ⟨j, hj, hlast, hread⟩ := getNs_moment clock.cycles last
  refine ⟨List.pairwise_append.mpr ⟨h.pairwise, List.pairwise_singleton _ _, ?_⟩, ?_⟩
  · intro t ht u hu
    obtain ⟨i, hi, hil, rfl⟩ := h.reads t ht
    rw [List.mem_singleton.mp hu, hread]
    exact clock.nanoseconds_mono (by omega)
  · intro t ht
    rcases List.mem_append.mp ht with ht | ht
    · obtain ⟨i, hi, hil, rfl⟩ := h.reads t ht
      exact ⟨i, hi, by omega, rfl⟩
    · exact ⟨j, by omega, hlast, by rw [List.mem_singleton.mp ht, hread]⟩

/-- The times in the packets, when the next one began and what it has so far. -/
def Log.times (log : Log) : List (BitVec 64) :=
  log.packets.flatMap Packet.times ++ log.start :: log.current.map (·.time)

/-- The invariant of the log: its times are in order. -/
private structure InTime (clock : Clock) (first : Nat) (log : Log) : Prop where
  started : first ≤ log.access
  ordered : Ordered clock.cycles first log.access log.times

private theorem later (c : Cycles) (k : Nat) : k ≤ (getNs c k).2 := by
  obtain ⟨j, hj, hlast, -⟩ := getNs_moment c k
  omega

private theorem InTime.close {b : Buffer} {log : Log} (h : InTime clock first log) :
    InTime clock first (log.close clock.cycles b) := by
  rw [Log.close]
  split
  · exact h
  · have hend := h.ordered.append h.started
    have hmid := h.started.trans (later clock.cycles log.access)
    have hbegin := hend.append hmid
    refine ⟨hmid.trans (later clock.cycles _), ?_⟩
    have htimes : ∀ e now k, Log.times ⟨log.packets ++ [⟨log.header b e, log.current⟩], [], now, k⟩ =
        log.times ++ [e] ++ [now] := by
      intro e now k
      simp [Log.times, Packet.times, Log.header]
    rw [htimes]
    exact hbegin

private theorem InTime.put {b : Buffer} {log : Log} (h : InTime clock first log) (e : Event) :
    InTime clock first (log.put clock.cycles b e) := by
  have hmade : InTime clock first (log.makeRoom clock.cycles b e.space) := by
    rw [Log.makeRoom]
    split
    · exact h.close
    · exact h
  rw [Log.put]
  split
  · refine ⟨hmade.started.trans (later clock.cycles _), ?_⟩
    have htimes (now : BitVec 64) (k : Nat) (log : Log) :
        Log.times { log with current := log.current ++ [⟨now, e⟩], access := k } = log.times ++ [now] := by
      simp [Log.times]
    rw [htimes]
    exact hmade.ordered.append hmade.started
  · exact hmade

private theorem InTime.step {b : Buffer} {log : Log} (h : InTime clock first log) (call : Call) :
    InTime clock first (log.step clock.cycles b call) := by
  rw [Log.step]
  cases call.event with
  | none => exact h.close
  | some e => exact h.put e

private theorem inTime_run (clock : Clock) (b : Buffer) (access : Nat) (calls : List Call) :
    InTime clock access (logOf clock.cycles b access calls) := by
  refine run_invariant (fun log call h => h.step call) ?_ calls
  have hnone : Ordered clock.cycles access access [] := ⟨List.Pairwise.nil, by simp⟩
  exact ⟨later clock.cycles access, hnone.append le_rfl⟩

end

/-- Along the packets time never goes back: a packet begins before its records
and ends behind them, and the next one begins later. -/
theorem packets_in_time (clock : Clock) (b : Buffer) (memory : Memory) (access : Nat) (calls : List Call) :
    ∃ (packets : List Packet) (current : List Record),
      (trace clock.cycles b memory access calls).flushed.map readPacket = packets.map some ∧
      (trace clock.cycles b memory access calls).pending = some current ∧
      Ordered clock.cycles access (trace clock.cycles b memory access calls).access
        (packets.flatMap Packet.times ++
          (trace clock.cycles b memory access calls).ctx.packetStartTime :: current.map (·.time)) := by
  have h := trace_represents clock.cycles b memory access calls
  refine ⟨_, _, h.flushed, h.pending, ?_⟩
  rw [h.start, h.access]
  exact (inTime_run clock b access calls).ordered

/-- A cycle for each access, up to 2^32 of them. -/
def cyclePerAccess : Clock where
  cycles := .upTo 0x100000000
  inRange k := by
    have hle : ((Counter.upTo 0x100000000).value k).toNat ≤ 0x100000000 := Counter.upTo_le _ k
    omega

/-- Room for two task switches a packet. -/
def roomForTwo : Buffer := ⟨0x48200000, 68, by decide, by decide⟩

theorem switches_in_time :
    let m := trace cyclePerAccess.cycles roomForTwo (fun _ => 0) 0 [.taskSwitch 1 2, .taskSwitch 2 3, .taskSwitch 3 1]
    ∃ (packets : List Packet) (current : List Record), m.flushed.map readPacket = packets.map some ∧
      m.pending = some current ∧
      (packets.flatMap Packet.times ++ m.ctx.packetStartTime :: current.map (·.time)).Pairwise (· ≤ ·) := by
  intro m
  obtain ⟨packets, current, hflushed, hpending, hordered⟩ := packets_in_time cyclePerAccess roomForTwo (fun _ => 0) 0
    [.taskSwitch 1 2, .taskSwitch 2 3, .taskSwitch 3 1]
  exact ⟨packets, current, hflushed, hpending, hordered.pairwise⟩

end IoProcessor.Tracing
