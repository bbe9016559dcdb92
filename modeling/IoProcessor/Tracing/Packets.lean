import IoProcessor.Library.Batches
import IoProcessor.Tracing.Barectf

/-! The packets as a reader of the trace takes them, and the log that the tracer
keeps in its buffer. -/
namespace IoProcessor.Tracing
open Library Memory History Hal.HardwareTimer Batches

def word : Codec Word := .field 4

def stamp : Codec (BitVec 64) := .field 8

def PacketHeader.codec : Codec PacketHeader :=
  (word.pair (word.pair (word.pair (word.pair (stamp.pair (stamp.pair word)))))).record
    (fun (magic, streamId, packetSize, contentSize, timestampBegin, timestampEnd, packetSeq) =>
      ⟨magic, streamId, packetSize, contentSize, timestampBegin, timestampEnd, packetSeq⟩)
    (fun h => (h.magic, h.streamId, h.packetSize, h.contentSize, h.timestampBegin, h.timestampEnd, h.packetSeq))
    (fun _ => rfl)

/-- An event with the widths that its fields have in a record. -/
inductive Event where
  | taskSwitch (taskId : BitVec 16) (state : BitVec 8)
  | spiTransfer (csId : BitVec 8) (len durationNs : Word)
  | uartFrame (len timeoutUs : Word)
  deriving DecidableEq, Repr

structure Record where
  time : BitVec 64
  event : Event
  deriving DecidableEq, Repr

def EventId.ofCode (b : Byte) : Option EventId :=
  if b = 0 then some .taskSwitch else if b = 1 then some .spiTransfer else if b = 2 then some .uartFrame else none

abbrev EventId.Fields : EventId → Type
  | .taskSwitch => BitVec 64 × BitVec 16 × BitVec 8
  | .spiTransfer => BitVec 64 × BitVec 8 × Word × Word
  | .uartFrame => BitVec 64 × Word × Word

def EventId.fields : (id : EventId) → Codec id.Fields
  | .taskSwitch => stamp.pair ((Codec.field 2).pair (.field 1))
  | .spiTransfer => stamp.pair ((Codec.field 1).pair (word.pair word))
  | .uartFrame => stamp.pair (word.pair word)

def Record.ofFields : (Σ id : EventId, id.Fields) → Record
  | ⟨.taskSwitch, time, taskId, state⟩ => ⟨time, .taskSwitch taskId state⟩
  | ⟨.spiTransfer, time, csId, len, durationNs⟩ => ⟨time, .spiTransfer csId len durationNs⟩
  | ⟨.uartFrame, time, len, timeoutUs⟩ => ⟨time, .uartFrame len timeoutUs⟩

def Record.toFields : Record → Σ id : EventId, id.Fields
  | ⟨time, .taskSwitch taskId state⟩ => ⟨.taskSwitch, time, taskId, state⟩
  | ⟨time, .spiTransfer csId len durationNs⟩ => ⟨.spiTransfer, time, csId, len, durationNs⟩
  | ⟨time, .uartFrame len timeoutUs⟩ => ⟨.uartFrame, time, len, timeoutUs⟩

def Record.codec : Codec Record :=
  (Codec.tagged EventId.code EventId.ofCode (fun id => by cases id <;> rfl) EventId.fields).record
    Record.ofFields Record.toFields (fun r => by rcases r with ⟨time, _ | _ | _⟩ <;> rfl)

structure Packet where
  header : PacketHeader
  records : List Record
  deriving DecidableEq, Repr

/-- A packet is its header and the records that its content size covers. -/
def readPacket (bytes : List Byte) : Option Packet := do
  let (header, rest) ← PacketHeader.codec.decode bytes
  if header.magic = ctfMagic then
    let records ← Record.codec.decodeAll rest.length
      (rest.take (header.contentSize.toNat / 8 - sizeofPacketHeader.toNat))
    some ⟨header, records⟩
  else none

/-- What an event takes in the buffer. -/
def Event.size : Event → Nat
  | .taskSwitch .. => 12
  | .spiTransfer .. => 18
  | .uartFrame .. => 17

/-- What its trace function asks for. -/
def Event.space : Event → Nat
  | .taskSwitch .. => 16
  | .spiTransfer .. => 20
  | .uartFrame .. => 20

def eventSizes : Sizes Event where
  taken := Event.size
  asked := Event.space
  taken_pos e := by cases e <;> simp [Event.size]
  taken_le_asked e := by cases e <;> simp [Event.size, Event.space]

def Call.event : Call → Option Event
  | .taskSwitch taskId state => some (.taskSwitch (taskId.setWidth 16) (state.setWidth 8))
  | .spiTransfer csId len durationNs => some (.spiTransfer (csId.setWidth 8) len durationNs)
  | .uartFrame len timeoutUs => some (.uartFrame len timeoutUs)
  | .flush => none

/-- Memory for a packet, less than 512 MiB: its size in bits is a 32-bit number. -/
structure Buffer where
  data : Word
  size : Word
  fits : data.toNat + size.toNat ≤ 2^32
  bits : size.toNat * 8 < 2^32

def Buffer.span (b : Buffer) : Span := ⟨b.data, b.size⟩

/-- What is left of the buffer for the records of a packet. -/
def Buffer.capacity (b : Buffer) : Nat := b.size.toNat - sizeofPacketHeader.toNat

/-- The packets that were flushed, the records since then and when these began. -/
structure Log where
  packets : List Packet
  current : List Record
  start : BitVec 64
  access : Nat

def used (records : List Record) : Nat := eventSizes.used (records.map (·.event))

def Log.header (b : Buffer) (log : Log) (timestampEnd : BitVec 64) : PacketHeader where
  magic := ctfMagic
  streamId := 0
  packetSize := b.size * 8
  contentSize := BitVec.ofNat 32 (sizeofPacketHeader.toNat + used log.current) * 8
  timestampBegin := log.start
  timestampEnd := timestampEnd
  packetSeq := BitVec.ofNat 32 log.packets.length

def Log.close (c : Cycles) (b : Buffer) (log : Log) : Log :=
  if log.current.isEmpty then log
  else
    let (timestampEnd, k) := getNs c log.access
    let (now, k) := getNs c k
    { packets := log.packets ++ [⟨log.header b timestampEnd, log.current⟩], current := [], start := now, access := k }

def Log.makeRoom (c : Cycles) (b : Buffer) (log : Log) (n : Nat) : Log :=
  if b.capacity < used log.current + n then log.close c b else log

def Log.put (c : Cycles) (b : Buffer) (log : Log) (e : Event) : Log :=
  let log := log.makeRoom c b e.space
  if used log.current + e.space ≤ b.capacity then
    let (now, k) := getNs c log.access
    { log with current := log.current ++ [⟨now, e⟩], access := k }
  else log

def Log.step (c : Cycles) (b : Buffer) (log : Log) (call : Call) : Log :=
  match call.event with
  | some e => log.put c b e
  | none => log.close c b

def Log.empty (c : Cycles) (access : Nat) : Log :=
  let (now, k) := getNs c access
  { packets := [], current := [], start := now, access := k }

/-- The events alone: a log is batches of them. -/
def Log.batches (log : Log) : State Event :=
  ⟨log.packets.map fun p => p.records.map (·.event), log.current.map (·.event)⟩

theorem Log.batches_close (c : Cycles) (b : Buffer) (log : Log) :
    (log.close c b).batches = Batches.close log.batches := by
  rw [Log.close, Batches.close]
  cases hc : log.current with
  | nil => simp [batches, hc]
  | cons r records => simp [batches, hc]

theorem Log.batches_makeRoom (c : Cycles) (b : Buffer) (log : Log) (n : Nat) :
    (log.makeRoom c b n).batches = Batches.makeRoom eventSizes b.capacity log.batches n := by
  rw [Log.makeRoom, Batches.makeRoom, ← batches_close c b log]
  exact apply_ite Log.batches (b.capacity < used log.current + n) _ _

theorem Log.batches_put (c : Cycles) (b : Buffer) (log : Log) (e : Event) :
    (log.put c b e).batches = Batches.put eventSizes b.capacity log.batches e := by
  simp only [Log.put, Batches.put, ← batches_makeRoom c]
  change (if used (log.makeRoom c b e.space).current + e.space ≤ b.capacity then _ else _ : Log).batches =
    if used (log.makeRoom c b e.space).current + e.space ≤ b.capacity then _ else _
  split
  · simp only [batches, List.map_append, List.map_cons, List.map_nil, eventSizes]
  · rfl

theorem Log.batches_step (c : Cycles) (b : Buffer) (log : Log) (call : Call) :
    (log.step c b call).batches = Batches.step eventSizes b.capacity log.batches call.event := by
  rw [Log.step]
  cases call.event with
  | none => exact batches_close c b log
  | some e => exact batches_put c b log e

/-- A log runs as batches of its events. -/
theorem Log.batches_run (c : Cycles) (b : Buffer) (log : Log) (calls : List Call) :
    (run (Log.step c b) log calls).batches =
      run (Batches.step eventSizes b.capacity) log.batches (calls.map Call.event) := by
  induction calls generalizing log with
  | nil => rfl
  | cons call calls ih => rw [run_cons, List.map_cons, run_cons, ih, batches_step]

theorem Record.encode_length (r : Record) : (Record.codec.encode r).length = r.event.size := by
  rcases r with ⟨time, _ | _ | _⟩ <;> rfl

theorem encode_records_length (records : List Record) :
    (records.flatMap Record.codec.encode).length = used records := by
  induction records with
  | nil => rfl
  | cons r records ih =>
    rw [List.flatMap_cons, List.length_append, Record.encode_length, ih]
    rfl

theorem PacketHeader.encode_length (h : PacketHeader) : (PacketHeader.codec.encode h).length = 36 := rfl

/-- A packet is read as it was written, whatever follows its content. -/
theorem readPacket_encode {h : PacketHeader} {records : List Record} (hmagic : h.magic = ctfMagic)
    (hsize : h.contentSize.toNat = (sizeofPacketHeader.toNat + used records) * 8) (rest : List Byte) :
    readPacket (PacketHeader.codec.encode h ++ (records.flatMap Record.codec.encode ++ rest)) = some ⟨h, records⟩ := by
  have hcontent : h.contentSize.toNat / 8 - sizeofPacketHeader.toNat = (records.flatMap Record.codec.encode).length := by
    rw [encode_records_length, hsize]
    omega
  have hne (r : Record) : Record.codec.encode r ≠ [] := by
    apply List.ne_nil_of_length_pos
    rw [Record.encode_length]
    exact eventSizes.taken_pos r.event
  have hcount : records.length ≤ (records.flatMap Record.codec.encode ++ rest).length := by
    have hle : (records.map (·.event)).length ≤ used records := length_le_used _
    rw [List.length_append, encode_records_length]
    rw [List.length_map] at hle
    omega
  simp only [readPacket, PacketHeader.codec.decode_encode, Option.bind_eq_bind, Option.bind_some, if_pos hmagic]
  rw [hcontent, List.take_left, Record.codec.decodeAll_encode hne records hcount]
  rfl

end IoProcessor.Tracing
