import Mathlib.Data.List.Infix
import IoProcessor.Hal.TwiWire

/-! Whole transfers of TwiDriver, from `begin` to the STOP, against a slave that
acknowledges what it is sent. -/
namespace IoProcessor.Hal.Twi
open Library MemoryMap

/-- The bus after a number of rounds. -/
def transfer (slave : Nat → Byte) (d : Device) (req : TwiRequest) (line : Line) (n : Nat) : Link :=
  (Link.round slave)^[n] (Link.start d req line)

/-- `begin` finds an idle line, or one that is about to be: the STOP of the
transfer before goes out first. -/
structure Ready (d : Device) (line : Line) : Prop where
  flag : (control d.regs.cntr).flag = false
  line : line = .idle ∨ (control d.regs.cntr).stp = true

/-- What is still to come of the transfer before. -/
def before (d : Device) : List Wire := if (control d.regs.cntr).stp then [.stop] else []

/-- The request that `await_suspend` makes of an awaiter's. -/
def awaited (request : TwiRequest) (h : Coro) (result : Word) (ticket : Nat) : TwiRequest :=
  { request with handle := some h, result := some result, ticket := ticket }

section Transfers
variable {slave : Nat → Byte} {d : Device} {req : TwiRequest} {line : Line}

theorem transfer_succ (n : Nat) :
    transfer slave d req line (n+1) = (transfer slave d req line n).round slave := Function.iterate_succ_apply' ..

/-- The line is idle when the START goes out. -/
theorem exists_started (slave : Nat → Byte) (req : TwiRequest) (hd : Ready d line) :
    ∃ m, Started d req (before d) (transfer slave d req line m) ∧
      ∀ k ≤ m, (transfer slave d req line k).device.history = d.history ++ [Event.begun req] := by
  have hregs : (Link.start d req line).device.regs = d.regs.writeCntr (d.regs.cntr ||| cntrMSta) := d.begin_regs req
  cases hstp : (control d.regs.cntr).stp with
  | false =>
    obtain rfl : line = .idle := hd.line.resolve_right (by simp [hstp])
    refine ⟨0, ⟨?_, ?_, ?_, rfl, ?_, ?_, rfl, rfl, rfl, rfl, rfl⟩, fun k hk => ?_⟩
    · simp [transfer, hregs, hd.flag]
    · simp [transfer, hregs, hstp]
    · simp [transfer, hregs]
    · simp [transfer, Link.start, before, hstp]
    · simp [transfer, hregs]
    · obtain rfl := Nat.le_zero.mp hk
      rfl
  | true =>
    have hone : transfer slave d req line 1 = (Link.start d req line).round slave := rfl
    rw [round_stop (by simp [hregs, hd.flag]) (by simp [hregs, hstp])] at hone
    refine ⟨1, ?_, fun k hk => ?_⟩
    · rw [hone]
      refine ⟨?_, ?_, ?_, rfl, ?_, ?_, rfl, rfl, rfl, rfl, rfl⟩
      · simp [hregs, hd.flag]
      · simp
      · simp [hregs]
      · simp [Link.start, before, hstp]
      · simp [hregs]
    · interval_cases k
      · rfl
      · rw [hone]
        rfl

/-- The rounds of a write up to its last byte. -/
theorem write_sending {m : Nat} (hm : Started d req (before d) (transfer slave d req line m)) (hw : req.isRead = false)
    (h7 : req.address.toNat < 128) {k : Nat} (hk : k ≤ req.length.toNat) :
    Sending d req (before d) (k+1) (transfer slave d req line (m + 2 + k)) := by
  induction k with
  | zero =>
    have h0 := hm.round_start slave h7
    rw [← transfer_succ] at h0
    have h1 := h0.round_address slave
    rw [← transfer_succ] at h1
    exact h1
  | succ k ih =>
    have h := (ih (Nat.le_of_succ_le hk)).round_byte slave hw hk
    rw [← transfer_succ] at h
    exact h

/-- A write, up to the round in which the handler asks for the STOP. -/
theorem write_ended {m : Nat} (hm : Started d req (before d) (transfer slave d req line m)) (hw : req.isRead = false)
    (h7 : req.address.toNat < 128) :
    let l := transfer slave d req line (m + req.length.toNat + 3)
    l.wire = before d ++ Wire.start :: (items d.ram req).map Wire.sent ∧ (control l.device.regs.cntr).stp = true ∧
      Outcome d req ((List.range req.length.toNat).map (Event.bufferRead req)) d.ram ((items d.ram req).map (·.setWidth 32))
        l.device := by
  have h := (write_sending hm hw h7 le_rfl).round_last slave hw
  rw [← transfer_succ, show m + 2 + req.length.toNat + 1 = m + req.length.toNat + 3 by omega] at h
  exact h

/-- The wire up to the first data byte of a read. -/
def turned (req : TwiRequest) : List Wire :=
  header req ++ [Wire.repeatedStart, Wire.sent (addressByte req.address true)]

/-- The bytes of a read: all but the last are acknowledged. -/
def clocked (slave : Nat → Byte) (n : Nat) : List Wire :=
  (List.range n).map fun i => .received (slave i) (decide (i + 1 < n))

/-- The rounds of a read: at least two bytes are clocked, and the handler looks
at the length only behind the first. -/
theorem read_receiving {m : Nat} (hm : Started d req (before d) (transfer slave d req line m)) (hr : req.isRead = true)
    (h7 : req.address.toNat < 128) {i : Nat} (hi : i < max 2 req.length.toNat) :
    let l := transfer slave d req line (m + 5 + i)
    Receiving slave d req (before d ++ turned req ++ (List.range i).map fun j => Wire.received (slave j) true)
        [addressByte req.address false, req.regAddr, addressByte req.address true] i l ∧
      (control l.device.regs.cntr).sta = false ∧ l.line = .reading ∧
      (control l.device.regs.cntr).ack = decide (i + 1 < max 2 req.length.toNat) := by
  induction i with
  | zero =>
    have h0 := hm.round_start slave h7
    rw [← transfer_succ] at h0
    have h1 := h0.round_address slave
    rw [← transfer_succ] at h1
    obtain ⟨h2, hsta, hline⟩ := h1.round_restart slave hr
    rw [← transfer_succ] at h2 hsta hline
    obtain ⟨h3, hsta, hline, hdata⟩ := h2.round_readdress h7 hsta hline
    rw [← transfer_succ] at h3 hsta hline hdata
    obtain ⟨h4, hsta, hline, hack⟩ := h3.round_turn hsta hline hdata
    rw [← transfer_succ] at h4 hsta hline hack
    refine ⟨?_, hsta, hline, ?_⟩
    · simpa [turned] using h4
    · rw [hack, eq_comm, decide_eq_true_iff]
      omega
  | succ i ih =>
    obtain ⟨h, hsta, hline, hack⟩ := ih (Nat.lt_of_succ_lt hi)
    rw [decide_eq_true hi] at hack
    obtain ⟨h', hsta', hline', hack'⟩ := h.round_acked hsta hline hack
    rw [← transfer_succ, Nat.add_assoc] at h' hsta' hline' hack'
    refine ⟨?_, hsta', hline', ?_⟩
    · simpa [List.range_succ] using h'
    · rw [hack']
      congr 1
      simp only [eq_iff_iff]
      omega

/-- A read, up to the round in which the handler asks for the STOP. -/
theorem read_ended {m : Nat} (hm : Started d req (before d) (transfer slave d req line m)) (hr : req.isRead = true)
    (h7 : req.address.toNat < 128) :
    let l := transfer slave d req line (m + 5 + max 2 req.length.toNat)
    l.wire = before d ++ turned req ++ clocked slave (max 2 req.length.toNat) ∧
      (control l.device.regs.cntr).stp = true ∧
      Outcome d req ((List.range req.length.toNat).map (.bufferWritten req))
        (d.ram.store req.buffer ((List.range req.length.toNat).map slave))
        ([addressByte req.address false, req.regAddr, addressByte req.address true].map (·.setWidth 32)) l.device := by
  obtain ⟨n, hn⟩ : ∃ n, max 2 req.length.toNat = n + 1 := ⟨max 2 req.length.toNat - 1, by omega⟩
  obtain ⟨h, hsta, hline, hack⟩ := read_receiving hm hr h7 (i := n) (by omega)
  rw [hn, decide_eq_false (by omega)] at hack
  obtain ⟨hwire, hstp, hout⟩ := h.round_nacked hsta hline hack
  rw [← transfer_succ] at hwire hstp hout
  rw [hn]
  refine ⟨?_, hstp, ?_⟩
  · have hacked : (List.range n).map (fun i => Wire.received (slave i) (decide (i + 1 < n + 1))) =
        (List.range n).map fun i => Wire.received (slave i) true := by
      apply List.map_congr_left
      intro i hi
      rw [decide_eq_true (by have := List.mem_range.mp hi; omega)]
    have hall : clocked slave (n+1) =
        (List.range n).map (fun i => Wire.received (slave i) true) ++ [Wire.received (slave n) false] := by
      rw [clocked, List.range_succ, List.map_append, hacked, List.map_singleton, decide_eq_false (by omega)]
    refine hwire.trans ?_
    rw [hall, ← List.append_assoc]
  · rwa [show min (n+1) req.length.toNat = req.length.toNat by omega] at hout

/-- The round of the STOP changes nothing else. -/
theorem Outcome.round_stop (slave : Nat → Byte) {events : List Event} {ram : Memory} {loads : List Word} {l : Link}
    (h : Outcome d req events ram loads l.device) (hstp : (control l.device.regs.cntr).stp = true) :
    (l.round slave).wire = l.wire ++ [Wire.stop] ∧ Outcome d req events ram loads (l.round slave).device := by
  rw [Twi.round_stop h.flag hstp]
  refine ⟨rfl, ?_, ?_, h.loads, h.ram, h.history⟩
  · simp [h.flag]
  · intro hq
    simp [h.sta hq]

theorem resultStored_self {m : Memory} {a : Word} (ha : req.result = some a) (result : TwiResult) :
    resultStored m req result a = result.toByte := by
  rw [resultStored, ha]
  exact Memory.store8_self ..

theorem resultStored_other {m : Memory} {x : Word} (hx : req.result ≠ some x) (result : TwiResult) :
    resultStored m req result x = m x := by
  rw [resultStored]
  cases hr : req.result with
  | none => rfl
  | some a =>
    refine Memory.store8_ne _ _ ?_
    rintro rfl
    exact hx hr

/-- The result is not part of the buffer: it is a member of the awaiter. -/
def Apart (req : TwiRequest) : Prop := ∀ k < req.length.toNat, req.result ≠ some (req.buffer + BitVec.ofNat 32 k)

/-- The buffer of a request. -/
def bufferOf (req : TwiRequest) : Span := ⟨req.buffer, req.length.setWidth 32⟩

theorem read_resultStored (h : Apart req) (m : Memory) (result : TwiResult) :
    (resultStored m req result).read (bufferOf req) = m.read (bufferOf req) := by
  apply List.map_congr_left
  intro k hk
  rw [List.mem_range, bufferOf, length_toNat] at hk
  exact resultStored_other (h k hk) result

/-- Everything since `begin`. -/
def since (d : Device) (l : Link) : List Event := l.device.history.drop d.history.length

theorem Outcome.since_eq {events : List Event} {ram : Memory} {loads : List Word} {l : Link}
    (h : Outcome d req events ram loads l.device) :
    ∃ next : List TwiRequest, since d l = Event.begun req :: events ++ finishEvents req .ok ++ next.map Event.begun := by
  obtain ⟨next, hnext, -⟩ := h.history
  refine ⟨next, ?_⟩
  rw [since, hnext]
  simp

/-- A transfer has ended with its result in place. -/
theorem Outcome.finished {events : List Event} {ram : Memory} {loads : List Word} {l : Link}
    (h : Outcome d req events ram loads l.device) : Event.finished req .ok ∈ since d l := by
  obtain ⟨next, hnext⟩ := h.since_eq
  rw [hnext]
  simp [finishEvents]

theorem Outcome.handles {ram : Memory} {loads : List Word} {e : Device} {events : List Event}
    (h : Outcome d req events ram loads e) (hevents : handlesOf events = []) :
    handlesOf e.history = handlesOf d.history ++ req.handle.toList := by
  obtain ⟨next, hnext, -⟩ := h.history
  have hbegun : handlesOf (next.map Event.begun) = [] := by
    simp [handlesOf, List.filterMap_map]
  have hfinish : handlesOf (finishEvents req .ok) = req.handle.toList := by
    cases hh : req.handle <;> cases hr : req.result <;> simp [finishEvents, handlesOf, hh, hr]
  rw [hnext]
  simp only [handlesOf, List.filterMap_append, List.filterMap_cons] at hevents hbegun hfinish ⊢
  rw [hevents, hbegun, hfinish]
  simp

/-- What a register write is to achieve. -/
structure Written (d : Device) (req : TwiRequest) (l : Link) : Prop where
  loads : loadsOf l.device.regs.writes = loadsOf d.regs.writes ++
    req.address.setWidth 32 * 2 :: req.regAddr.setWidth 32 :: (d.ram.read (bufferOf req)).map (·.setWidth 32)
  wire : l.wire = before d ++
    Wire.start :: Wire.sent (addressByte req.address false) :: Wire.sent req.regAddr ::
      (d.ram.read (bufferOf req)).map Wire.sent ++ [Wire.stop]
  finished : Event.finished req .ok ∈ since d l
  result : ∀ a, req.result = some a → l.device.ram a = TwiResult.ok.toByte
  posted : handlesOf l.device.history = handlesOf d.history ++ req.handle.toList
  memory : ∀ x, req.result ≠ some x → l.device.ram x = d.ram x
  buffer : Apart req → l.device.ram.read (bufferOf req) = d.ram.read (bufferOf req)

/-- Every register write goes out byte by byte and ends with a STOP. -/
theorem register_write (slave : Nat → Byte) (d : Device) (req : TwiRequest) (line : Line) (hd : Ready d line)
    (hw : req.isRead = false) (h7 : req.address.toNat < 128) : ∃ n, Written d req (transfer slave d req line n) := by
  obtain ⟨m, hm, -⟩ := exists_started slave req hd
  obtain ⟨hwire, hstp, hout⟩ := write_ended hm hw h7
  obtain ⟨hstop, hout⟩ := hout.round_stop slave hstp
  rw [← transfer_succ] at hstop hout
  have haddr : (addressByte req.address false).setWidth 32 = req.address.setWidth 32 * 2 := by
    rw [← addressByte_toWord h7 false]
    simp only [Bool.false_eq_true, if_false, BitVec.ofNat_eq_ofNat, BitVec.or_zero, BitVec.shiftLeft_eq_mul_twoPow]
    rfl
  refine ⟨_, ?_, ?_, hout.finished, ?_, ?_, ?_, ?_⟩
  · rw [hout.loads]
    simp only [items, List.map_cons, haddr]
    rfl
  · rw [hstop, hwire]
    rfl
  · intro a ha
    rw [hout.ram, resultStored_self ha]
  · exact hout.handles (by simp [handlesOf, List.filterMap_map])
  · intro x hx
    rw [hout.ram, resultStored_other hx]
  · intro ha
    rw [hout.ram, read_resultStored ha]

/-- Two bytes are written to the power management register of a sensor. -/
theorem power_register_written :
    let d := device (init fun _ => 0) sTwi0Base
    let req := awaited (asyncWrite 0x68 0x6B ⟨0x20001000, 2⟩) 1 0x20000000 1
    ∃ n, Written d req (transfer (fun _ => 0) d req .idle n) :=
  register_write _ _ _ _ ⟨by decide, .inl rfl⟩ rfl (by decide)

/-- What has been on the wire stays there. -/
theorem wire_grows (l : Link) : l.wire <+: (l.round slave).wire := by
  have happend (w : Wire) : l.wire <+: l.wire ++ [w] := List.prefix_append ..
  have hc : l.wire <+: (l.controller slave).wire := by
    unfold Link.controller Link.report
    dsimp only
    repeat' split
    all_goals first | exact List.prefix_rfl | exact happend _
  exact hc

theorem transfer_wire_grows (slave : Nat → Byte) (d : Device) (req : TwiRequest) (line : Line) {n k : Nat} (h : n ≤ k) :
    (transfer slave d req line n).wire <+: (transfer slave d req line k).wire := by
  induction k, h using Nat.le_induction with
  | base => exact List.prefix_rfl
  | succ k _ ih =>
    rw [transfer_succ]
    exact ih.trans (wire_grows _)

/-- What a register read is to achieve. -/
structure ReadBack (slave : Nat → Byte) (d : Device) (req : TwiRequest) (l : Link) : Prop where
  wire : l.wire = before d ++
    [Wire.start, Wire.sent (addressByte req.address false), Wire.sent req.regAddr, Wire.repeatedStart,
      Wire.sent (addressByte req.address true)] ++ clocked slave req.length.toNat ++ [Wire.stop]
  buffer : Apart req → l.device.ram.read (bufferOf req) = (List.range req.length.toNat).map slave
  finished : Event.finished req .ok ∈ since d l
  result : ∀ a, req.result = some a → l.device.ram a = TwiResult.ok.toByte

/-- The handler acknowledges the first byte without a look at the length, so
that a second one is clocked. -/
theorem single_byte_acked (hd : Ready d line) (hr : req.isRead = true) (h7 : req.address.toNat < 128)
    (hone : req.length.toNat = 1) (n : Nat) : ¬ ReadBack slave d req (transfer slave d req line n) := by
  intro hn
  obtain ⟨m, hm, -⟩ := exists_started slave req hd
  have hwire := hn.wire
  rw [hone] at hwire
  have hwanted : (transfer slave d req line n).wire =
      before d ++ turned req ++ [Wire.received (slave 0) false] ++ [Wire.stop] := hwire
  obtain ⟨hacked, -⟩ := read_receiving hm hr h7 (i := 1) (by omega)
  have hseen : (transfer slave d req line (m + 5 + 1)).wire =
      before d ++ turned req ++ [Wire.received (slave 0) true] := hacked.wire
  rcases Nat.le_total n (m + 5 + 1) with h | h
  · have hpre := transfer_wire_grows slave d req line h
    have hlen := hpre.length_le
    rw [hwanted, hseen] at hlen
    simp at hlen
  · have hpre := transfer_wire_grows slave d req line h
    rw [hwanted, hseen, List.append_assoc _ _ [Wire.stop], List.prefix_append_right_inj] at hpre
    simp at hpre

/-- A register read is right unless it is for one byte. -/
theorem register_read_iff (slave : Nat → Byte) (d : Device) (req : TwiRequest) (line : Line) (hd : Ready d line)
    (hr : req.isRead = true) (h7 : req.address.toNat < 128) (hlen : 1 ≤ req.length.toNat) :
    (∃ n, ReadBack slave d req (transfer slave d req line n)) ↔ req.length.toNat ≠ 1 := by
  constructor
  · rintro ⟨n, hn⟩ hone
    exact single_byte_acked hd hr h7 hone n hn
  · intro hne
    obtain ⟨m, hm, -⟩ := exists_started slave req hd
    obtain ⟨hwire, hstp, hout⟩ := read_ended hm hr h7
    obtain ⟨hstop, hout⟩ := hout.round_stop slave hstp
    rw [← transfer_succ] at hstop hout
    have hmax : max 2 req.length.toNat = req.length.toNat := by omega
    refine ⟨_, ?_, ?_, hout.finished, ?_⟩
    · rw [hstop, hwire, hmax]
      rfl
    · intro ha
      rw [hout.ram, read_resultStored ha]
      refine Memory.read_store _ (bufferOf req) ?_
      rw [List.length_map, List.length_range, bufferOf, length_toNat]
    · intro a ha
      rw [hout.ram, resultStored_self ha]

/-- The six bytes of an acceleration are read. -/
theorem acceleration_read :
    let d := device (init fun _ => 0) sTwi0Base
    let req := awaited (asyncRead 0x68 0x3B ⟨0x20001000, 6⟩) 1 0x20000000 1
    ∃ n, ReadBack (BitVec.ofNat 8) d req (transfer (BitVec.ofNat 8) d req .idle n) :=
  (register_read_iff _ _ _ _ ⟨by decide, .inl rfl⟩ rfl (by decide) (by decide)).mpr (by decide)

/-- The identity of a sensor is read, and the register behind it as well. -/
theorem identity_read_overruns :
    let d := device (init fun _ => 0) sTwi0Base
    let req := awaited (asyncRead 0x68 0x75 ⟨0x20001000, 1⟩) 1 0x20000000 1
    ¬ ∃ n, ReadBack (BitVec.ofNat 8) d req (transfer (BitVec.ofNat 8) d req .idle n) := by
  rintro d req ⟨n, hn⟩
  exact single_byte_acked ⟨by decide, .inl rfl⟩ rfl (by decide) (by decide) n hn

theorem device_history_grows (d : Device) : d.history <+: d.handleIsr.history := by
  let Grown (e : Device) : Prop := d.history <+: e.history
  have happend (e : Device) (t : List Event) (h : Grown e) : d.history <+: e.history ++ t :=
    List.IsPrefix.trans h (List.prefix_append ..)
  have hfinish (e : Device) (result : TwiResult) (h : Grown e) : Grown (e.finish result) := by
    show d.history <+: (e.finish result).history
    obtain ⟨next, hnext, -⟩ := (e.finish_finished result).history
    rw [hnext, List.append_assoc]
    exact happend e _ h
  have hwrite (e : Device) (h : Grown e) : Grown e.writeNextByte := by
    unfold Device.writeNextByte
    split
    · exact hfinish e .ok h
    · exact happend e _ h
  have hstore (e : Device) (h : Grown e) : Grown e.storeByte := by
    unfold Device.storeByte
    split
    · exact happend e _ h
    · exact h
  have hd : Grown d := List.prefix_rfl
  exact Device.handleIsr_keeps (fun _ _ h => h) (fun _ _ _ h => h) hwrite hstore hfinish hd

theorem history_grows (l : Link) : l.device.history <+: (l.round slave).device.history := by
  have hc : (l.controller slave).device.history = l.device.history := by
    unfold Link.controller Link.report
    dsimp only
    repeat' split
    all_goals rfl
  rw [← hc]
  exact device_history_grows _

/-- The coroutine of the request has been posted since `begin`. -/
def Posted (d : Device) (req : TwiRequest) (l : Link) : Prop := ∃ h, Event.posted req h ∈ since d l

theorem Posted.mono {n k : Nat} (h : n ≤ k) (hp : Posted d req (transfer slave d req line n)) :
    Posted d req (transfer slave d req line k) := by
  induction k, h using Nat.le_induction with
  | base => exact hp
  | succ k _ ih =>
    obtain ⟨c, hc⟩ := ih
    rw [transfer_succ]
    exact ⟨c, ((history_grows _).drop _).subset hc⟩

/-- Behind round `n` the coroutine is resumed, and `await_resume` returns Ok. -/
def ResumesOk (slave : Nat → Byte) (d : Device) (req : TwiRequest) (line : Line) (n : Nat) : Prop :=
  ¬ Posted d req (transfer slave d req line n) ∧ Posted d req (transfer slave d req line (n+1)) ∧
    ∀ a, req.result = some a → (transfer slave d req line (n+1)).device.ram a = TwiResult.ok.toByte

theorem ResumesOk.unique {n k : Nat} (hn : ResumesOk slave d req line n) (hk : ResumesOk slave d req line k) : n = k := by
  rcases Nat.lt_trichotomy n k with h | h | h
  · exact absurd (hn.2.1.mono h) hk.1
  · exact h
  · exact absurd (hk.2.1.mono h) hn.1

/-- The bytes that the master has put on the wire. -/
def sentOf (w : List Wire) : List Byte := w.filterMap fun | .sent b => some b | _ => none

/-- Every byte of the span has been received into it, or sent from it behind
the address and the register. -/
def Transferred (slave : Nat → Byte) (d : Device) (req : TwiRequest) (span : Span) (l : Link) : Prop :=
  if req.isRead then
    ∀ i < span.size.toNat, Event.bufferWritten req i ∈ since d l ∧
      ((∀ k < span.size.toNat, req.result ≠ some (span.data + BitVec.ofNat 32 k)) →
        l.device.ram (span.data + BitVec.ofNat 32 i) = slave i)
  else (sentOf l.wire).drop 2 = d.ram.read span

theorem not_posted_of_history {l : Link} {events : List Event} (h : l.device.history = d.history ++ Event.begun req :: events)
    (hevents : ∀ e ∈ events, ∀ c, e ≠ Event.posted req c) : ¬ Posted d req l := by
  rintro ⟨c, hc⟩
  rw [since, h] at hc
  simp only [List.drop_left, List.mem_cons, reduceCtorEq, false_or] at hc
  exact hevents _ hc c rfl

/-- Behind its last round a transfer resumes its coroutine. -/
theorem Outcome.resumesOk {events : List Event} {ram : Memory} {loads : List Word} {n : Nat}
    (h : Outcome d req events ram loads (transfer slave d req line (n+1)).device) {c : Coro} (hc : req.handle = some c)
    (hn : ¬ Posted d req (transfer slave d req line n)) : ResumesOk slave d req line n := by
  refine ⟨hn, ⟨c, ?_⟩, ?_⟩
  · obtain ⟨next, hnext⟩ := h.since_eq
    rw [hnext]
    simp [finishEvents, hc]
  · intro a ha
    rw [h.ram, resultStored_self ha]

theorem write_resumes (slave : Nat → Byte) (hd : Ready d line) (hw : req.isRead = false) (h7 : req.address.toNat < 128)
    {c : Coro} (hc : req.handle = some c) :
    ∃ n, ResumesOk slave d req line n ∧
      (transfer slave d req line (n+1)).wire = before d ++ Wire.start :: (items d.ram req).map Wire.sent := by
  obtain ⟨m, hm, -⟩ := exists_started slave req hd
  obtain ⟨hwire, -, hout⟩ := write_ended hm hw h7
  have hlast := (write_sending hm hw h7 le_rfl).history
  rw [show m + 2 + req.length.toNat = m + req.length.toNat + 2 by omega] at hlast
  refine ⟨_, hout.resumesOk hc (not_posted_of_history hlast ?_), hwire⟩
  rintro e he c rfl
  simp at he

theorem read_resumes (slave : Nat → Byte) (hd : Ready d line) (hr : req.isRead = true) (h7 : req.address.toNat < 128)
    {c : Coro} (hc : req.handle = some c) :
    ∃ n, ResumesOk slave d req line n ∧ ∃ loads,
      Outcome d req ((List.range req.length.toNat).map (.bufferWritten req))
        (d.ram.store req.buffer ((List.range req.length.toNat).map slave)) loads
        (transfer slave d req line (n+1)).device := by
  obtain ⟨m, hm, -⟩ := exists_started slave req hd
  obtain ⟨-, -, hout⟩ := read_ended hm hr h7
  obtain ⟨k, hk⟩ : ∃ k, max 2 req.length.toNat = k + 1 := ⟨max 2 req.length.toNat - 1, by omega⟩
  rw [hk, ← Nat.add_assoc] at hout
  have hlast := (read_receiving hm hr h7 (i := k) (by omega)).1.history
  refine ⟨_, hout.resumesOk hc (not_posted_of_history hlast ?_), _, hout⟩
  rintro e he c rfl
  simp at he

theorem sentOf_map_sent (bytes : List Byte) : sentOf (bytes.map .sent) = bytes := by
  simp [sentOf, List.filterMap_map]

/-- The span of an await is the buffer of its request as long as 16 bits hold
the size. -/
theorem bufferOf_awaited {address regAddr : Byte} {isRead : Bool} {span : Span} {h : Coro} {result : Word} {ticket : Nat}
    (hsize : span.size.toNat < 2^16) :
    bufferOf (awaited (awaiterRequest address regAddr isRead span) h result ticket) = span := by
  have hwidth : (span.size.setWidth 16).setWidth 32 = span.size := by
    apply BitVec.eq_of_toNat_eq
    rw [BitVec.toNat_setWidth, BitVec.toNat_setWidth]
    omega
  exact congrArg (Span.mk span.data) hwidth

theorem length_awaited (address regAddr : Byte) (isRead : Bool) (span : Span) (h : Coro) (result : Word) (ticket : Nat) :
    (awaited (awaiterRequest address regAddr isRead span) h result ticket).length.toNat = span.size.toNat % 2^16 :=
  BitVec.toNat_setWidth ..

theorem write_transferred_iff {l : Link} (hw : req.isRead = false)
    (hwire : l.wire = before d ++ Wire.start :: (items d.ram req).map Wire.sent) {span : Span} :
    Transferred slave d req span l ↔ d.ram.read (bufferOf req) = d.ram.read span := by
  have hbefore : sentOf (before d) = [] := by
    unfold before
    split <;> rfl
  have hsent : (sentOf l.wire).drop 2 = d.ram.read (bufferOf req) := by
    rw [hwire, sentOf, List.filterMap_append]
    rw [sentOf] at hbefore
    rw [hbefore, List.nil_append, List.filterMap_cons_none rfl]
    exact congrArg (List.drop 2) (sentOf_map_sent _)
  rw [Transferred, if_neg (by simp [hw]), hsent]

theorem read_transferred_iff {l : Link} {loads : List Word} (hr : req.isRead = true)
    (hout : Outcome d req ((List.range req.length.toNat).map (.bufferWritten req))
      (d.ram.store req.buffer ((List.range req.length.toNat).map slave)) loads l.device) {span : Span}
    (hdata : req.buffer = span.data) (hlen : req.length.toNat = span.size.toNat % 2^16) :
    Transferred slave d req span l ↔ span.size.toNat < 2^16 := by
  have hsize := span.size.isLt
  obtain ⟨next, hnext⟩ := hout.since_eq
  rw [Transferred, if_pos hr]
  constructor
  · intro h
    by_contra hge
    -- The length is the place of the first byte that is left out.
    obtain ⟨hmem, -⟩ := h req.length.toNat (by omega)
    rw [hnext] at hmem
    simp [finishEvents] at hmem
  · intro hlt i hi
    rw [Nat.mod_eq_of_lt hlt] at hlen
    rw [hlen] at hnext
    refine ⟨?_, fun hapart => ?_⟩
    · rw [hnext]
      simp [hi]
    · rw [hout.ram, resultStored_other (hapart i hi), Memory.store, ← hdata, Memory.add_sub_toNat (by omega), hlen]
      simp [hi]

/-- The one round that decides: the request has only 16 bits for the size of
the span. -/
theorem exists_resume (slave : Nat → Byte) (hd : Ready d line) (address regAddr : Byte) (isRead : Bool) (span : Span)
    (h : Coro) (result : Word) (ticket : Nat) (h7 : address.toNat < 128) :
    let req := awaited (awaiterRequest address regAddr isRead span) h result ticket
    ∃ n, ResumesOk slave d req line n ∧
      (Transferred slave d req span (transfer slave d req line (n+1)) ↔ span.size.toNat < 2^16) := by
  intro req
  have hlen : req.length.toNat = span.size.toNat % 2^16 := length_awaited ..
  cases isRead with
  | true =>
    obtain ⟨n, hresume, loads, hout⟩ := read_resumes slave hd (show req.isRead = true from rfl) h7 rfl
    exact ⟨n, hresume, read_transferred_iff rfl hout rfl hlen⟩
  | false =>
    obtain ⟨n, hresume, hwire⟩ := write_resumes slave hd (show req.isRead = false from rfl) h7 rfl
    refine ⟨n, hresume, ?_⟩
    rw [write_transferred_iff rfl hwire]
    constructor
    · intro hread
      have hcount := congrArg List.length hread
      simp only [Memory.read, List.length_map, List.length_range, bufferOf, length_toNat, hlen] at hcount
      have := span.size.isLt
      omega
    · intro hlt
      rw [bufferOf_awaited hlt]

/-- `await_resume` returns Ok for every span, and rightly so for those that a
request can describe. -/
theorem ok_means_transferred_iff (slave : Nat → Byte) (d : Device) (line : Line) (hd : Ready d line)
    (address regAddr : Byte) (isRead : Bool) (span : Span) (h : Coro) (result : Word) (ticket : Nat)
    (h7 : address.toNat < 128) :
    let req := awaited (awaiterRequest address regAddr isRead span) h result ticket
    (∃ n, ResumesOk slave d req line n) ∧
      ((∀ n, ResumesOk slave d req line n → Transferred slave d req span (transfer slave d req line (n+1))) ↔
        span.size.toNat < 2^16) := by
  intro req
  obtain ⟨n, hresume, hiff⟩ := exists_resume slave hd address regAddr isRead span h result ticket h7
  refine ⟨⟨n, hresume⟩, fun hall => hiff.mp (hall n hresume), fun hlt k hk => ?_⟩
  rw [hk.unique hresume]
  exact hiff.mpr hlt

/-- A page of an EEPROM is written as a whole. -/
theorem page_transferred :
    let d := device (init fun _ => 0) sTwi0Base
    let span : Span := ⟨0x20001000, 256⟩
    let req := awaited (awaiterRequest 0x50 0 false span) 1 0x20000000 1
    (∃ n, ResumesOk (fun _ => 0) d req .idle n) ∧
      ∀ n, ResumesOk (fun _ => 0) d req .idle n →
        Transferred (fun _ => 0) d req span (transfer (fun _ => 0) d req .idle (n+1)) := by
  intro d span req
  obtain ⟨hok, hiff⟩ := ok_means_transferred_iff (fun _ => 0) d .idle ⟨by decide, .inl rfl⟩ 0x50 0 false span 1
    0x20000000 1 (by decide)
  exact ⟨hok, hiff.mpr (by decide)⟩

/-- 65537 bytes are asked for, one arrives, and the result is Ok. -/
theorem long_read_cut_short :
    let d := device (init fun _ => 0) sTwi0Base
    let span : Span := ⟨0x20001000, 65537⟩
    let req := awaited (asyncRead 0x68 0x74 span) 1 0x20000000 1
    ¬ ∀ n, ResumesOk (fun _ => 0) d req .idle n →
      Transferred (fun _ => 0) d req span (transfer (fun _ => 0) d req .idle (n+1)) := by
  intro d span req hall
  have hd : Ready d .idle := ⟨by decide, .inl rfl⟩
  obtain ⟨n, hresume, hiff⟩ := exists_resume (fun _ => 0) hd 0x68 0x74 true span 1 0x20000000 1 (by decide)
  exact absurd (hiff.mp (hall n hresume)) (by decide)

/-- The stores of `begin` as steps of the coroutine domain. -/
theorem proceed_begin (s : State) {base : Word} (hpc : s.pc = .beginning base req 0) :
    device (History.run step s (List.replicate 12 .proceed)) base = (device s base).begin req := by
  simp [History.run, step, startTransferStep, hpc, Device.beginStores, TwiRequest.wordStores, List.replicate, Device.begin, device, commit]

/-- An await on an idle bus: `start_transfer` pops the request that
`await_suspend` has pushed, and begins it. -/
theorem await_begins (s : State) (b : Bus) (hpc : s.pc = .outside) (hidle : (s.state b).active = false)
    (hempty : (s.queue b).toList = []) (hready : Ready (device s b.base) line) (address regAddr : Byte) (isRead : Bool)
    (span : Span) (h : Coro) (result : Word) :
    let call := if isRead then Action.coAwaitRead b.base h address regAddr span result
      else Action.coAwaitWrite b.base h address regAddr span result
    ∃ d ticket, Ready d line ∧ device (History.run step s (call :: List.replicate 14 .proceed)) b.base =
      d.begin (awaited (awaiterRequest address regAddr isRead span) h result ticket) := by
  intro call
  let ticket := (pushedOf (s.history b)).length + 1
  let req := awaited (awaiterRequest address regAddr isRead span) h result ticket
  have hcall : step s call = awaitSuspendPush s b.base h (awaiterRequest address regAddr isRead span) result := by
    cases isRead <;> simp only [call, step, hpc, if_true, Bool.false_eq_true, if_false] <;> rfl
  rcases (s.queue b).push_cases req with ⟨-, hfull⟩ | ⟨q, hpush, hq, -⟩
  · simp [hempty] at hfull
  rw [hempty, List.nil_append] at hq
  rcases q.pop_cases with ⟨-, hnil⟩ | ⟨next, q', hpop, hq'⟩
  · simp [hq] at hnil
  obtain ⟨rfl, -⟩ := List.cons.inj (hq.symm.trans hq')
  -- Two steps lead to `begin`: the test of the active flag and the pop.
  let s' : State :=
    { awaitSuspendPush s b.base h (awaiterRequest address regAddr isRead span) result with
      queue := Function.update s.queue b q'
      pc := .beginning b.base req 0 }
  have hsteps : History.run step s (call :: List.replicate 14 .proceed) =
      History.run step s' (List.replicate 12 .proceed) := by
    rw [History.run_cons, hcall, show List.replicate 14 Action.proceed = [.proceed, .proceed] ++ List.replicate 12 .proceed
      from rfl, History.run_append]
    congr 1
    have hpush' : (s.queue b).push { awaiterRequest address regAddr isRead span with
        handle := some h, result := some result, ticket := (pushedOf (s.history b)).length + 1 } = (true, q) := hpush
    simp only [History.run, List.foldl_cons, List.foldl_nil, step, startTransferStep, awaitSuspendPush, busFor_base,
      hpush', hidle, Function.update_self, hpop, Function.update_idem, Bool.false_eq_true, if_false, s']
  refine ⟨device s' b.base, ticket, ⟨hready.flag, hready.line⟩, ?_⟩
  rw [hsteps]
  exact proceed_begin s' rfl

end Transfers
end IoProcessor.Hal.Twi
