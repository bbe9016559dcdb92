import IoProcessor.Hal.TwiBounds
import IoProcessor.Hal.TwiAcknowledge

/-! TwiDriver's handler against a controller and a slave that acknowledges what
it is sent. The controller moves when INT_FLAG is clear and reports by setting
it, so its steps and the calls of the handler alternate. -/
namespace IoProcessor.Hal.Twi
open Library MemoryMap

/-- The bits of CNTR that the bus looks at. -/
structure Control where
  flag : Bool
  stp : Bool
  sta : Bool
  ack : Bool
  deriving DecidableEq, Repr

def control (cntr : Word) : Control := ⟨cntr.getLsbD 3, cntr.getLsbD 4, cntr.getLsbD 5, cntr.getLsbD 2⟩

section Control
variable (c : Word)

@[simp] theorem control_or_intFlag : control (c ||| cntrIntFlag) = { control c with flag := true } := by
  simp [control, cntrIntFlag]

@[simp] theorem control_or_mStp : control (c ||| cntrMStp) = { control c with stp := true } := by
  simp [control, cntrMStp]

@[simp] theorem control_or_mSta : control (c ||| cntrMSta) = { control c with sta := true } := by
  simp [control, cntrMSta]

@[simp] theorem control_or_ack : control (c ||| cntrAck) = { control c with ack := true } := by
  simp [control, cntrAck]

@[simp] theorem control_clear_mStp : control (c &&& ~~~cntrMStp) = { control c with stp := false } := by
  simp [control, cntrMStp]

@[simp] theorem control_clear_mSta : control (c &&& ~~~cntrMSta) = { control c with sta := false } := by
  simp [control, cntrMSta]

@[simp] theorem control_clear_ack : control (c &&& ~~~cntrAck) = { control c with ack := false } := by
  simp [control, cntrAck]

/-- INT_FLAG survives only a write of zero. -/
@[simp] theorem control_writeCntr (r : Regs) (v : Word) :
    control (r.writeCntr v).cntr = { control v with flag := (control r.cntr).flag && !(control v).flag } := by
  simp [control, Regs.writeCntr, cntrIntFlag]

theorem and_intFlag_eq_zero : c &&& cntrIntFlag = 0 ↔ (control c).flag = false := by
  constructor
  · intro h
    have := congrArg (fun w => w.getLsbD 3) h
    simpa [control, cntrIntFlag] using this
  · intro h
    apply BitVec.eq_of_getLsbD_eq
    intro i hi
    rcases eq_or_ne i 3 with rfl | hne
    · simpa [control, cntrIntFlag] using h
    · rw [BitVec.getLsbD_and, cntrIntFlag, BitVec.getLsbD_shiftLeft, BitVec.getLsbD_one]
      have hbit : i - 3 ≠ 0 ∨ i < 3 := by omega
      rcases hbit with h | h <;> simp [h]

end Control

/-- What can be seen on the two wires. -/
inductive Wire where
  | start | repeatedStart
  | sent (b : Byte)
  | received (b : Byte) (acked : Bool)
  | stop
  deriving DecidableEq, Repr

inductive Line where
  | idle | addressing | writing | reading
  deriving DecidableEq, Repr

/-- A bus, its controller and the slave, which has supplied `received` bytes. -/
structure Link where
  device : Device
  line : Line
  wire : List Wire
  received : Nat

namespace Link

/-- An interrupt of the controller. -/
def report (l : Link) (cntr stat : Word) : Link :=
  { l with device.regs.cntr := cntr ||| cntrIntFlag, device.regs.stat := stat }

/-- What the controller does next. A STOP goes out before a START, and a byte
only when neither is asked for; the direction of the transfer is bit 0 of the
address byte. -/
def controller (slave : Nat → Byte) (l : Link) : Link :=
  let r := l.device.regs
  let byte := r.data.setWidth 8
  if (control r.cntr).flag then l
  else if (control r.cntr).stp then
    { l with device.regs.cntr := r.cntr &&& ~~~cntrMStp, line := .idle, wire := l.wire ++ [Wire.stop] }
  else if (control r.cntr).sta then
    if l.line = .idle then
      { l.report (r.cntr &&& ~~~cntrMSta) statStart with line := .addressing, wire := l.wire ++ [Wire.start] }
    else
      { l.report (r.cntr &&& ~~~cntrMSta) statRepeatStart with
        line := .addressing
        wire := l.wire ++ [Wire.repeatedStart] }
  else
    match l.line with
    | .idle => l
    | .addressing =>
      if byte.getLsbD 0 then { l.report r.cntr statAddrRAck with line := .reading, wire := l.wire ++ [Wire.sent byte] }
      else { l.report r.cntr statAddrWAck with line := .writing, wire := l.wire ++ [Wire.sent byte] }
    | .writing => { l.report r.cntr statDataTxAck with wire := l.wire ++ [.sent byte] }
    | .reading =>
      let b := slave l.received
      { l.report r.cntr (if (control r.cntr).ack then statDataRxAck else statDataRxNack) with
        device.regs.data := b.setWidth 32
        wire := l.wire ++ [Wire.received b (control r.cntr).ack]
        received := l.received + 1 }

/-- The controller moves and the handler answers. -/
def round (slave : Nat → Byte) (l : Link) : Link :=
  let l := l.controller slave
  { l with device := l.device.handleIsr }

/-- The transfer of a request, from `begin` on. -/
def start (d : Device) (req : TwiRequest) (line : Line) : Link := ⟨d.begin req, line, [], 0⟩

section Controller
variable {slave : Nat → Byte} {l : Link} (hf : (control l.device.regs.cntr).flag = false)
include hf

theorem controller_stop (hstp : (control l.device.regs.cntr).stp = true) :
    l.controller slave =
      { l with
        device.regs.cntr := l.device.regs.cntr &&& ~~~cntrMStp
        line := .idle
        wire := l.wire ++ [Wire.stop] } := by
  simp [controller, hf, hstp]

variable (hstp : (control l.device.regs.cntr).stp = false)
include hstp

theorem controller_start (hsta : (control l.device.regs.cntr).sta = true) (hl : l.line = .idle) :
    l.controller slave =
      { l.report (l.device.regs.cntr &&& ~~~cntrMSta) statStart with
        line := .addressing
        wire := l.wire ++ [Wire.start] } := by
  simp [controller, hf, hstp, hsta, hl]

theorem controller_restart (hsta : (control l.device.regs.cntr).sta = true) (hl : l.line ≠ .idle) :
    l.controller slave =
      { l.report (l.device.regs.cntr &&& ~~~cntrMSta) statRepeatStart with
        line := .addressing
        wire := l.wire ++ [Wire.repeatedStart] } := by
  simp [controller, hf, hstp, hsta, hl]

variable (hsta : (control l.device.regs.cntr).sta = false) {b : Byte}
include hsta

theorem controller_address (hl : l.line = .addressing) (hdata : l.device.regs.data = b.setWidth 32) :
    l.controller slave =
      { l.report l.device.regs.cntr (if b.getLsbD 0 then statAddrRAck else statAddrWAck) with
        line := if b.getLsbD 0 then .reading else .writing
        wire := l.wire ++ [Wire.sent b] } := by
  have hb : l.device.regs.data.setWidth 8 = b := by
    rw [hdata]
    simp
  simp only [controller, hf, hstp, hsta, hl, hb, Bool.false_eq_true, if_false]
  split <;> rfl

theorem controller_write (hl : l.line = .writing) (hdata : l.device.regs.data = b.setWidth 32) :
    l.controller slave = { l.report l.device.regs.cntr statDataTxAck with wire := l.wire ++ [Wire.sent b] } := by
  have hb : l.device.regs.data.setWidth 8 = b := by
    rw [hdata]
    simp
  simp only [controller, hf, hstp, hsta, hl, hb, Bool.false_eq_true, if_false]

theorem controller_read (hl : l.line = .reading) :
    l.controller slave =
      { l.report l.device.regs.cntr
          (if (control l.device.regs.cntr).ack then statDataRxAck else statDataRxNack) with
        device.regs.data := (slave l.received).setWidth 32
        wire := l.wire ++ [Wire.received (slave l.received) (control l.device.regs.cntr).ack]
        received := l.received + 1 } := by
  simp only [controller, hf, hstp, hsta, hl, Bool.false_eq_true, if_false]

end Controller
end Link

namespace Device
variable {d : Device}

/-- The handler's answers to the reports of a transfer that goes well. -/
theorem handleIsr_of_idle (hf : (control d.regs.cntr).flag = false) : d.handleIsr = d := by
  rw [handleIsr, if_pos ((and_intFlag_eq_zero _).mpr hf)]

section Reports
variable (hf : (control d.regs.cntr).flag = true)
include hf

theorem flag_raised : ¬ d.regs.cntr &&& cntrIntFlag = 0 := by
  rw [and_intFlag_eq_zero, hf]
  exact Bool.noConfusion

theorem handleIsr_start (hs : d.regs.stat = statStart ∨ d.regs.stat = statRepeatStart) :
    d.handleIsr = { d with
      regs := d.regs.writeData ((d.state.address.setWidth 32 <<< 1) ||| (if d.state.phaseIsRead then 1 else 0)) }.orCntr
        cntrIntFlag := by
  rw [handleIsr, if_neg (flag_raised hf), if_pos hs]

theorem handleIsr_addrW (hs : d.regs.stat = statAddrWAck) (hsent : d.state.sentRegAddr = false) :
    d.handleIsr = { d with
      regs := d.regs.writeData (d.state.regAddr.setWidth 32)
      state.sentRegAddr := true }.orCntr cntrIntFlag := by
  rw [handleIsr, if_neg (flag_raised hf), if_neg (by rw [hs]; decide), if_pos hs]
  simp only [hsent, Bool.false_eq_true, if_false]

theorem handleIsr_transmitted (hs : d.regs.stat = statDataTxAck) :
    d.handleIsr =
      (if d.state.request.isRead ∧ d.state.sentRegAddr ∧ d.state.index = 0 then
        { d with state.phaseIsRead := true }.orCntr cntrMSta
      else d.writeNextByte).orCntr cntrIntFlag := by
  rw [handleIsr, if_neg (flag_raised hf), if_neg (by rw [hs]; decide), if_neg (by rw [hs]; decide), if_pos hs]

theorem handleIsr_restart (hs : d.regs.stat = statDataTxAck) (hread : d.state.request.isRead = true)
    (hsent : d.state.sentRegAddr = true) (hindex : d.state.index = 0) :
    d.handleIsr = ({ d with state.phaseIsRead := true }.orCntr cntrMSta).orCntr cntrIntFlag := by
  rw [handleIsr_transmitted hf hs, if_pos ⟨hread, hsent, hindex⟩]

theorem handleIsr_dataTx (hs : d.regs.stat = statDataTxAck) (hwrite : d.state.request.isRead = false) :
    d.handleIsr = d.writeNextByte.orCntr cntrIntFlag := by
  rw [handleIsr_transmitted hf hs, if_neg]
  rintro ⟨hread, -⟩
  rw [hwrite] at hread
  cases hread

theorem handleIsr_addrR (hs : d.regs.stat = statAddrRAck) :
    d.handleIsr = (d.orCntr cntrAck).orCntr cntrIntFlag := by
  rw [handleIsr, if_neg (flag_raised hf), if_neg (by rw [hs]; decide), if_neg (by rw [hs]; decide),
    if_neg (by rw [hs]; decide), if_pos hs]

theorem handleIsr_dataRx (hs : d.regs.stat = statDataRxAck) : d.handleIsr = d.readNextByte.orCntr cntrIntFlag := by
  rw [handleIsr, if_neg (flag_raised hf), if_neg (by rw [hs]; decide), if_neg (by rw [hs]; decide),
    if_neg (by rw [hs]; decide), if_neg (by rw [hs]; decide), if_pos hs]

theorem handleIsr_dataRxNack (hs : d.regs.stat = statDataRxNack) : d.handleIsr = d.readNextByte.finish .ok := by
  rw [handleIsr, if_neg (flag_raised hf), if_neg (by rw [hs]; decide), if_neg (by rw [hs]; decide),
    if_neg (by rw [hs]; decide), if_neg (by rw [hs]; decide), if_neg (by rw [hs]; decide), if_pos hs]

end Reports
end Device

@[simp] theorem Regs.writeData_cntr (r : Regs) (v : Word) : (r.writeData v).cntr = r.cntr := rfl
@[simp] theorem Regs.writeData_data (r : Regs) (v : Word) : (r.writeData v).data = v := rfl
@[simp] theorem Regs.writeCntr_data (r : Regs) (v : Word) : (r.writeCntr v).data = r.data := rfl

/-- The values loaded into DATA, in order. -/
def loadsOf (writes : List (Register × Word)) : List Word :=
  writes.filterMap fun | (.data, v) => some v | (.cntr, _) => none

@[simp] theorem loadsOf_writeCntr (r : Regs) (v : Word) : loadsOf (r.writeCntr v).writes = loadsOf r.writes := by
  simp [loadsOf, Regs.writeCntr]

@[simp] theorem loadsOf_writeData (r : Regs) (v : Word) :
    loadsOf (r.writeData v).writes = loadsOf r.writes ++ [v] := by
  simp [loadsOf, Regs.writeData]

/-- Memory once the result has been written. -/
def resultStored (m : Memory) (req : TwiRequest) (result : TwiResult) : Memory :=
  match req.result with
  | some address => m.store8 address result.toByte
  | none => m

/-- What `finish` leaves behind, at the latest when the handler returns. -/
structure Finished (d e : Device) (result : TwiResult) : Prop where
  flag : (control e.regs.cntr).flag = false
  stp : (control e.regs.cntr).stp = true
  sta : d.queue.toList = [] → (control e.regs.cntr).sta = (control d.regs.cntr).sta
  loads : loadsOf e.regs.writes = loadsOf d.regs.writes
  ram : e.ram = resultStored d.ram d.state.request result
  history : ∃ next : List TwiRequest, e.history = d.history ++ finishEvents d.state.request result ++ next.map Event.begun ∧
    (d.queue.toList = [] → next = [])

namespace Device

theorem finish_ram (d : Device) (result : TwiResult) :
    (d.finish result).ram = resultStored d.ram d.state.request result := by
  have hbegin (e : Device) : e.beginNext.ram = e.ram := by
    unfold beginNext
    split <;> rfl
  have hpost (e : Device) (req : TwiRequest) : (e.post req).ram = e.ram := by
    unfold post
    split <;> rfl
  rw [finish, hbegin, hpost]
  unfold writeResult resultStored
  cases hr : d.state.request.result <;> simp [orCntr, hr]

theorem finish_finished (d : Device) (result : TwiResult) : Finished d (d.finish result) result := by
  obtain ⟨e, he, hqueue, -, hhistory⟩ := d.finish_eq result
  have hregs := d.finish_regs result
  rw [finishAccesses] at hregs
  rcases d.queue.pop_cases with ⟨hp, hq⟩ | ⟨next, q, hp, hq⟩
  · rw [if_pos hq] at hregs
    simp only [List.append_nil, List.foldl_cons, List.foldl_nil, Access.apply] at hregs
    refine ⟨?_, ?_, ?_, ?_, d.finish_ram result, [], ?_, fun _ => rfl⟩
    · simp [hregs]
    · simp [hregs]
    · simp [hregs]
    · simp [hregs]
    · rw [he, beginNext, hqueue, hp, hhistory]
      simp
  · have hne : d.queue.toList ≠ [] := by simp [hq]
    rw [if_neg hne] at hregs
    simp only [List.cons_append, List.nil_append, List.foldl_cons, List.foldl_nil, Access.apply] at hregs
    refine ⟨?_, ?_, fun h => absurd h hne, ?_, d.finish_ram result, [next], ?_, fun h => absurd h hne⟩
    · simp [hregs]
    · simp [hregs]
    · simp [hregs]
    · rw [he, beginNext, hqueue, hp]
      simp only [List.map_cons, List.map_nil, ← hhistory]
      rfl

end Device

/-- The last acknowledgement of the handler changes nothing any more. -/
theorem Finished.orCntr {d e : Device} {result : TwiResult} (h : Finished d e result) :
    Finished d (e.orCntr cntrIntFlag) result where
  flag := by simp [Device.orCntr, h.flag]
  stp := by simp [Device.orCntr, h.stp]
  sta hq := by simpa [Device.orCntr] using h.sta hq
  loads := by simpa [Device.orCntr] using h.loads
  ram := h.ram
  history := h.history

/-- The seven bits of an address and the direction. -/
def addressByte (address : Byte) (read : Bool) : Byte := address.setWidth 7 ++ BitVec.ofBool read

theorem addressByte_toWord {address : Byte} (h : address.toNat < 128) (read : Bool) :
    (address.setWidth 32 <<< 1) ||| (if read then 1 else 0) = (addressByte address read).setWidth 32 := by
  have hlow : address.getLsbD 7 = false := by
    rw [BitVec.getLsbD, Nat.testBit_lt_two_pow h]
  apply BitVec.eq_of_getLsbD_eq
  intro i hi
  cases read <;> simp [addressByte] <;> grind

theorem addressByte_direction (address : Byte) (read : Bool) : (addressByte address read).getLsbD 0 = read := by
  rw [addressByte, BitVec.getLsbD_append]
  cases read <;> rfl

/-- What a write request sends. -/
def items (m : Memory) (req : TwiRequest) : List Byte :=
  addressByte req.address false :: req.regAddr :: m.read ⟨req.buffer, req.length.setWidth 32⟩

/-- A START has been asked for on an idle line. -/
structure Started (d : Device) (req : TwiRequest) (w : List Wire) (l : Link) : Prop where
  flag : (control l.device.regs.cntr).flag = false
  stp : (control l.device.regs.cntr).stp = false
  sta : (control l.device.regs.cntr).sta = true
  line : l.line = .idle
  wire : l.wire = w
  loads : loadsOf l.device.regs.writes = loadsOf d.regs.writes
  state : l.device.state = ⟨req, 0, req.address, req.regAddr, false, false, true⟩
  history : l.device.history = d.history ++ [Event.begun req]
  ram : l.device.ram = d.ram
  queue : l.device.queue = d.queue
  received : l.received = 0

/-- The items before item `k` are on the wire, and item `k` is in DATA. -/
structure Sending (d : Device) (req : TwiRequest) (w : List Wire) (k : Nat) (l : Link) : Prop where
  flag : (control l.device.regs.cntr).flag = false
  stp : (control l.device.regs.cntr).stp = false
  sta : (control l.device.regs.cntr).sta = false
  line : l.line = if k = 0 then .addressing else .writing
  wire : l.wire = w ++ Wire.start :: ((items d.ram req).take k).map Wire.sent
  data : ∃ b, (items d.ram req)[k]? = some b ∧ l.device.regs.data = b.setWidth 32
  loads : loadsOf l.device.regs.writes = loadsOf d.regs.writes ++ ((items d.ram req).take (k+1)).map (·.setWidth 32)
  state : l.device.state = ⟨req, BitVec.ofNat 16 (k-1), req.address, req.regAddr, decide (1 ≤ k), false, true⟩
  history : l.device.history = d.history ++ Event.begun req :: (List.range (k-1)).map (Event.bufferRead req)
  ram : l.device.ram = d.ram
  queue : l.device.queue = d.queue
  received : l.received = 0

section Rounds
variable (slave : Nat → Byte) {d : Device} {req : TwiRequest} {w : List Wire} {l : Link}

theorem Started.round_start (h : Started d req w l) (h7 : req.address.toNat < 128) :
    Sending d req w 0 (l.round slave) := by
  rw [Link.round, Link.controller_start h.flag h.stp h.sta h.line]
  dsimp only
  rw [Device.handleIsr_start (by simp [Link.report]) (.inl rfl)]
  have haddr := addressByte_toWord h7 false
  simp only [Bool.false_eq_true, if_false] at haddr
  refine ⟨?_, ?_, ?_, rfl, ?_, ⟨_, rfl, ?_⟩, ?_, ?_, h.history, h.ram, h.queue, h.received⟩
  · simp [Device.orCntr]
  · simp [Device.orCntr, Link.report, h.stp]
  · simp [Device.orCntr, Link.report]
  · simp [h.wire]
  · simpa [Device.orCntr, Link.report, h.state] using haddr
  · simp only [Device.orCntr, Link.report, loadsOf_writeCntr, loadsOf_writeData, h.loads, h.state, Bool.false_eq_true,
      if_false]
    exact congrArg (fun v => loadsOf d.regs.writes ++ [v]) haddr
  · simp [Device.orCntr, Link.report, h.state]

theorem items_take_succ (m : Memory) {k : Nat} {b : Byte} (hb : (items m req)[k]? = some b) :
    (items m req).take (k+1) = (items m req).take k ++ [b] := by
  rw [List.take_add_one, hb]
  rfl

/-- The address has been acknowledged, and the register follows it. -/
theorem Sending.round_address (h : Sending d req w 0 l) : Sending d req w 1 (l.round slave) := by
  obtain ⟨b, hb, hdata⟩ := h.data
  obtain rfl : addressByte req.address false = b := by simpa [items] using hb
  rw [Link.round, Link.controller_address h.flag h.stp h.sta h.line hdata]
  simp only [addressByte_direction, Bool.false_eq_true, if_false]
  rw [Device.handleIsr_addrW (by simp [Link.report]) rfl (by simp [Link.report, h.state])]
  refine ⟨?_, ?_, ?_, rfl, ?_, ⟨req.regAddr, rfl, ?_⟩, ?_, ?_, ?_, ?_, ?_, ?_⟩
  · simp [Device.orCntr]
  · simp [Device.orCntr, Link.report, h.stp]
  · simp [Device.orCntr, Link.report, h.sta]
  · simp [h.wire, items]
  · simp [Device.orCntr, Link.report, h.state]
  · simp only [Device.orCntr, Link.report, loadsOf_writeCntr, loadsOf_writeData, h.loads]
    simp [items, h.state]
  · simp [Device.orCntr, Link.report, h.state]
  · simp [Device.orCntr, Link.report, h.history]
  · simp [Device.orCntr, Link.report, h.ram]
  · simp [Device.orCntr, Link.report, h.queue]
  · simp [Link.report, h.received]

/-- The size of the buffer as a word. -/
theorem length_toNat (req : TwiRequest) : (req.length.setWidth 32).toNat = req.length.toNat := by
  have := req.length.isLt
  rw [BitVec.toNat_setWidth, Nat.mod_eq_of_lt (by omega)]

theorem items_length (m : Memory) : (items m req).length = req.length.toNat + 2 := by
  simp only [items, Memory.read, length_toNat, List.length_cons, List.length_map, List.length_range]

theorem items_getElem {m : Memory} {k : Nat} (hk : k < req.length.toNat) :
    (items m req)[k+2]? = some (m (req.buffer + BitVec.ofNat 32 k)) := by
  simp only [items, Memory.read, length_toNat, List.getElem?_cons_succ, List.getElem?_map, List.getElem?_range hk,
    Option.map_some]

theorem index_toNat {k : Nat} (hk : k ≤ req.length.toNat) : (BitVec.ofNat 16 k).toNat = k := by
  have := req.length.isLt
  rw [BitVec.toNat_ofNat, Nat.mod_eq_of_lt (by omega)]

theorem index_setWidth {k : Nat} (hk : k ≤ req.length.toNat) : (BitVec.ofNat 16 k).setWidth 32 = BitVec.ofNat 32 k := by
  apply BitVec.eq_of_toNat_eq
  rw [BitVec.toNat_setWidth, index_toNat hk, BitVec.toNat_ofNat]

theorem index_succ (k : Nat) : BitVec.ofNat 16 k + 1#16 = BitVec.ofNat 16 (k+1) := (BitVec.ofNat_add ..).symm

/-- The next byte of the buffer follows the one that has been acknowledged. -/
theorem Sending.round_byte {k : Nat} (h : Sending d req w (k+1) l) (hw : req.isRead = false) (hk : k < req.length.toNat) :
    Sending d req w (k+2) (l.round slave) := by
  obtain ⟨b, hb, hdata⟩ := h.data
  rw [Link.round, Link.controller_write h.flag h.stp h.sta h.line hdata]
  dsimp only
  rw [Device.handleIsr_dataTx (by simp [Link.report]) rfl (by simp [Link.report, h.state, hw]), Device.writeNextByte,
    if_neg (by
      simp only [Link.report, h.state, ge_iff_le, BitVec.le_def, Nat.add_sub_cancel, index_toNat hk.le]
      omega)]
  have hitem := items_getElem (m := d.ram) hk
  have hload : l.device.ram (l.device.state.request.buffer + l.device.state.index.setWidth 32) =
      d.ram (req.buffer + BitVec.ofNat 32 k) := by
    rw [h.ram, h.state]
    simp only [Nat.add_sub_cancel, index_setWidth hk.le]
  refine ⟨?_, ?_, ?_, h.line, ?_, ⟨_, hitem, ?_⟩, ?_, ?_, ?_, h.ram, h.queue, h.received⟩
  · simp [Device.orCntr]
  · simp [Device.orCntr, Link.report, h.stp]
  · simp [Device.orCntr, Link.report, h.sta]
  · simp [h.wire, items_take_succ d.ram hb]
  · simp [Device.orCntr, Link.report, hload]
  · simp only [Device.orCntr, Link.report, loadsOf_writeCntr, loadsOf_writeData, h.loads, hload]
    rw [items_take_succ d.ram hitem]
    simp
  · simp [Device.orCntr, Link.report, h.state, index_succ]
  · simp [Device.orCntr, Link.report, h.state, h.history, List.range_succ, index_toNat hk.le]

/-- A bus after the end of a transfer, apart from what is on the wire. -/
structure Outcome (d : Device) (req : TwiRequest) (events : List Event) (ram : Memory) (loads : List Word) (e : Device) :
    Prop where
  flag : (control e.regs.cntr).flag = false
  sta : d.queue.toList = [] → (control e.regs.cntr).sta = false
  loads : loadsOf e.regs.writes = loadsOf d.regs.writes ++ loads
  ram : e.ram = resultStored ram req .ok
  history : ∃ next : List TwiRequest,
    e.history = d.history ++ Event.begun req :: events ++ finishEvents req .ok ++ next.map Event.begun ∧
      (d.queue.toList = [] → next = [])

theorem Finished.outcome {e f : Device} {events : List Event} {ram : Memory} {loads : List Word} (h : Finished e f .ok)
    (hsta : (control e.regs.cntr).sta = false) (hloads : loadsOf e.regs.writes = loadsOf d.regs.writes ++ loads)
    (hstate : e.state.request = req) (hhistory : e.history = d.history ++ Event.begun req :: events) (hram : e.ram = ram)
    (hqueue : e.queue = d.queue) : Outcome d req events ram loads f where
  flag := h.flag
  sta hq := (h.sta (by rwa [hqueue])).trans hsta
  loads := h.loads.trans hloads
  ram := by rw [h.ram, hram, hstate]
  history := by
    have hnext := h.history
    rwa [hhistory, hstate, hqueue] at hnext

/-- The buffer has been sent, and the handler asks for a STOP. -/
theorem Sending.round_last (h : Sending d req w (req.length.toNat + 1) l) (hw : req.isRead = false) :
    (l.round slave).wire = w ++ Wire.start :: (items d.ram req).map Wire.sent ∧
      (control (l.round slave).device.regs.cntr).stp = true ∧
      Outcome d req ((List.range req.length.toNat).map (.bufferRead req)) d.ram ((items d.ram req).map (·.setWidth 32))
        (l.round slave).device := by
  obtain ⟨b, hb, hdata⟩ := h.data
  rw [Link.round, Link.controller_write h.flag h.stp h.sta h.line hdata]
  dsimp only
  rw [Device.handleIsr_dataTx (by simp [Link.report]) rfl (by simp [Link.report, h.state, hw]), Device.writeNextByte,
    if_pos (by
      simp only [Link.report, h.state, ge_iff_le, BitVec.le_def, Nat.add_sub_cancel, index_toNat le_rfl]
      exact le_rfl)]
  have hall : (items d.ram req).take (req.length.toNat + 2) = items d.ram req :=
    List.take_of_length_le (items_length d.ram).le
  have hf := (Device.finish_finished (l.report l.device.regs.cntr statDataTxAck).device .ok).orCntr
  have hwire : (items d.ram req).take (req.length.toNat + 1) ++ [b] = items d.ram req := by
    rw [← items_take_succ d.ram hb, hall]
  refine ⟨?_, hf.stp, hf.outcome (by simp [Link.report, h.sta]) ?_ ?_ ?_ h.ram h.queue⟩
  · have hmap := congrArg (List.map Wire.sent) hwire
    rw [List.map_append] at hmap
    simp only [h.wire, List.append_assoc, List.cons_append, ← hmap]
    rfl
  · simp [Link.report, h.loads, hall]
  · simp [Link.report, h.state]
  · simp [Link.report, h.history]

/-- The read phase, with `i` bytes received. The buffer takes no more than its
length. -/
structure Receiving (slave : Nat → Byte) (d : Device) (req : TwiRequest) (wire : List Wire) (loads : List Byte) (i : Nat)
    (l : Link) : Prop where
  flag : (control l.device.regs.cntr).flag = false
  stp : (control l.device.regs.cntr).stp = false
  wire : l.wire = wire
  loads : loadsOf l.device.regs.writes = loadsOf d.regs.writes ++ loads.map (·.setWidth 32)
  state : l.device.state =
    ⟨req, BitVec.ofNat 16 (min i req.length.toNat), req.address, req.regAddr, true, true, true⟩
  history : l.device.history =
    d.history ++ Event.begun req :: (List.range (min i req.length.toNat)).map (Event.bufferWritten req)
  ram : l.device.ram = d.ram.store req.buffer ((List.range (min i req.length.toNat)).map slave)
  queue : l.device.queue = d.queue
  received : l.received = i

/-- The wire up to the turn of a read. -/
def header (req : TwiRequest) : List Wire := [.start, .sent (addressByte req.address false), .sent req.regAddr]

/-- The register has been acknowledged, and the bus is to be turned round. -/
theorem Sending.round_restart (h : Sending d req w 1 l) (hr : req.isRead = true) :
    Receiving slave d req (w ++ header req) [addressByte req.address false, req.regAddr] 0 (l.round slave) ∧
      (control (l.round slave).device.regs.cntr).sta = true ∧ (l.round slave).line = .writing := by
  obtain ⟨b, hb, hdata⟩ := h.data
  obtain rfl : req.regAddr = b := by simpa [items] using hb
  rw [Link.round, Link.controller_write h.flag h.stp h.sta h.line hdata]
  dsimp only
  rw [Device.handleIsr_restart (by simp [Link.report]) rfl (by simp [Link.report, h.state, hr])
    (by simp [Link.report, h.state]) (by simp [Link.report, h.state])]
  have hempty : d.ram.store req.buffer [] = d.ram := by
    funext x
    simp [Memory.store]
  refine ⟨⟨?_, ?_, ?_, ?_, ?_, ?_, ?_, h.queue, h.received⟩, ?_, h.line⟩
  · simp [Device.orCntr]
  · simp [Device.orCntr, Link.report, h.stp]
  · simp [h.wire, items, header]
  · simp [Device.orCntr, Link.report, h.loads, items]
  · simp [Device.orCntr, Link.report, h.state]
  · simp [Device.orCntr, Link.report, h.history]
  · simp [Device.orCntr, Link.report, h.ram, hempty]
  · simp [Device.orCntr, Link.report]

variable {slave} {wire : List Wire} {loads : List Byte} {i : Nat}

/-- The repeated START, behind which the address goes out again. -/
theorem Receiving.round_readdress (h : Receiving slave d req wire loads 0 l) (h7 : req.address.toNat < 128)
    (hsta : (control l.device.regs.cntr).sta = true) (hl : l.line = .writing) :
    Receiving slave d req (wire ++ [Wire.repeatedStart]) (loads ++ [addressByte req.address true]) 0 (l.round slave) ∧
      (control (l.round slave).device.regs.cntr).sta = false ∧ (l.round slave).line = .addressing ∧
      (l.round slave).device.regs.data = (addressByte req.address true).setWidth 32 := by
  rw [Link.round, Link.controller_restart h.flag h.stp hsta (by simp [hl])]
  dsimp only
  rw [Device.handleIsr_start (by simp [Link.report]) (.inr rfl)]
  have haddr := addressByte_toWord h7 true
  rw [if_pos rfl] at haddr
  refine ⟨⟨?_, ?_, ?_, ?_, ?_, h.history, h.ram, h.queue, h.received⟩, ?_, rfl, ?_⟩
  · simp [Device.orCntr]
  · simp [Device.orCntr, Link.report, h.stp]
  · simp [h.wire]
  · simp only [Device.orCntr, Link.report, loadsOf_writeCntr, loadsOf_writeData, h.loads, h.state, if_true]
    simp [← haddr]
  · simp [Device.orCntr, Link.report, h.state]
  · simp [Device.orCntr, Link.report]
  · simpa [Device.orCntr, Link.report, h.state] using haddr

/-- The address has been acknowledged for reading, and so will be the first
byte, whatever the length. -/
theorem Receiving.round_turn (h : Receiving slave d req wire loads 0 l)
    (hsta : (control l.device.regs.cntr).sta = false) (hl : l.line = .addressing)
    (hdata : l.device.regs.data = (addressByte req.address true).setWidth 32) :
    Receiving slave d req (wire ++ [Wire.sent (addressByte req.address true)]) loads 0 (l.round slave) ∧
      (control (l.round slave).device.regs.cntr).sta = false ∧ (l.round slave).line = .reading ∧
      (control (l.round slave).device.regs.cntr).ack = true := by
  rw [Link.round, Link.controller_address h.flag h.stp hsta hl hdata]
  simp only [addressByte_direction, if_true]
  rw [Device.handleIsr_addrR (by simp [Link.report]) rfl]
  refine ⟨⟨?_, ?_, ?_, ?_, h.state, h.history, h.ram, h.queue, h.received⟩, ?_, trivial, ?_⟩
  · simp [Device.orCntr]
  · simp [Device.orCntr, Link.report, h.stp]
  · simp [h.wire]
  · simp [Device.orCntr, Link.report, h.loads]
  · simp [Device.orCntr, Link.report, hsta]
  · simp [Device.orCntr, Link.report]

/-- The byte in DATA goes to the next place of the buffer, or nowhere when the
buffer is full. -/
theorem storeByte_spec {e : Device} {m : Memory} (hreq : e.state.request = req)
    (hindex : e.state.index = BitVec.ofNat 16 (min i req.length.toNat))
    (hram : e.ram = m.store req.buffer ((List.range (min i req.length.toNat)).map slave))
    (hdata : e.regs.data = (slave i).setWidth 32) :
    e.storeByte.state = { e.state with index := BitVec.ofNat 16 (min (i+1) req.length.toNat) } ∧
      e.storeByte.ram = m.store req.buffer ((List.range (min (i+1) req.length.toNat)).map slave) ∧
      ∀ pre, e.history = pre ++ (List.range (min i req.length.toNat)).map (Event.bufferWritten req) →
        e.storeByte.history = pre ++ (List.range (min (i+1) req.length.toNat)).map (Event.bufferWritten req) := by
  have hlen := req.length.isLt
  rcases Nat.lt_or_ge i req.length.toNat with hi | hi
  · have hmin : min i req.length.toNat = i := by omega
    have hmin' : min (i+1) req.length.toNat = i+1 := by omega
    rw [hmin] at hindex hram
    rw [hmin, hmin']
    have hlt : e.state.index < e.state.request.length := by
      rw [hindex, hreq, BitVec.lt_def, index_toNat hi.le]
      exact hi
    rw [Device.storeByte, if_pos hlt]
    refine ⟨?_, ?_, ?_⟩
    · simp only [hindex]
      exact congrArg (fun k => { e.state with index := k }) (index_succ i)
    · simp only [hram, hreq, hindex, index_setWidth hi.le, hdata]
      rw [List.range_succ, List.map_append, List.map_singleton, Memory.store_concat _ _ _ (by simp; omega)]
      simp
    · intro pre hpre
      simp only [hpre, hreq, hindex, index_toNat hi.le]
      simp [List.range_succ]
  · have hmin : min i req.length.toNat = req.length.toNat := by omega
    have hmin' : min (i+1) req.length.toNat = req.length.toNat := by omega
    rw [hmin] at hindex hram
    rw [hmin, hmin']
    have hge : ¬ e.state.index < e.state.request.length := by
      rw [hindex, hreq, BitVec.lt_def, index_toNat le_rfl]
      exact lt_irrefl _
    rw [Device.storeByte, if_neg hge]
    exact ⟨by rw [← hindex], hram, fun _ h => h⟩

/-- A bus as the handler finds it when a byte has come in. -/
def incoming (d : Device) (stat : Word) (b : Byte) : Device :=
  { d with regs := { d.regs with cntr := d.regs.cntr ||| cntrIntFlag, stat := stat, data := b.setWidth 32 } }

/-- `read_next_byte` on an incoming byte. -/
theorem Receiving.readNextByte (h : Receiving slave d req wire loads i l) (stat : Word) :
    ∃ e, (incoming l.device stat (slave i)).readNextByte = e ∧
      e.state = ⟨req, BitVec.ofNat 16 (min (i+1) req.length.toNat), req.address, req.regAddr, true, true, true⟩ ∧
      e.history = d.history ++ Event.begun req :: (List.range (min (i+1) req.length.toNat)).map (Event.bufferWritten req) ∧
      e.ram = d.ram.store req.buffer ((List.range (min (i+1) req.length.toNat)).map slave) ∧ e.queue = d.queue ∧
      loadsOf e.regs.writes = loadsOf d.regs.writes ++ loads.map (·.setWidth 32) ∧
      (control e.regs.cntr).stp = false ∧ (control e.regs.cntr).sta = (control l.device.regs.cntr).sta ∧
      (control e.regs.cntr).ack = ((control l.device.regs.cntr).ack && decide (i + 2 < req.length.toNat)) := by
  have hreq : l.device.state.request = req := by rw [h.state]
  have hindex : l.device.state.index = BitVec.ofNat 16 (min i req.length.toNat) := by rw [h.state]
  obtain ⟨hstate, hram, hhistory⟩ := storeByte_spec (e := incoming l.device stat (slave i)) hreq hindex h.ram rfl
  have hhistory := hhistory (d.history ++ [Event.begun req]) (by simp [incoming, h.history])
  obtain ⟨hregs, hqueue⟩ := (incoming l.device stat (slave i)).storeByte_frame
  refine ⟨_, rfl, ?_⟩
  rw [Device.readNextByte]
  generalize (incoming l.device stat (slave i)).storeByte = f at hstate hram hhistory hregs hqueue
  simp only [incoming, h.state] at hstate
  have hcontrol : control f.regs.cntr = { control l.device.regs.cntr with flag := true } := by
    rw [hregs]
    exact control_or_intFlag _
  have hloads : loadsOf f.regs.writes = loadsOf d.regs.writes ++ loads.map (·.setWidth 32) := by
    rw [hregs]
    exact h.loads
  have hlast : f.state.index.toNat + 1 ≥ f.state.request.length.toNat ↔ ¬ i + 2 < req.length.toNat := by
    rw [hstate]
    simp only [index_toNat (Nat.min_le_right (i+1) _)]
    omega
  simp only [hlast, ite_not]
  split
  · rename_i hmore
    simp [hstate, hhistory, hram, hqueue.trans h.queue, hloads, hcontrol, h.stp, hmore]
  · rename_i hmore
    simp [hstate, hhistory, hram, hqueue.trans h.queue, hloads, hcontrol, h.stp, hmore]

/-- A byte that is acknowledged. The next one will be too, unless it is the
last. -/
theorem Receiving.round_acked (h : Receiving slave d req wire loads i l)
    (hsta : (control l.device.regs.cntr).sta = false) (hl : l.line = .reading)
    (hack : (control l.device.regs.cntr).ack = true) :
    Receiving slave d req (wire ++ [Wire.received (slave i) true]) loads (i+1) (l.round slave) ∧
      (control (l.round slave).device.regs.cntr).sta = false ∧ (l.round slave).line = .reading ∧
      (control (l.round slave).device.regs.cntr).ack = decide (i + 2 < req.length.toNat) := by
  obtain ⟨e, he, hstate, hhistory, hram, hqueue, hloads, hstp, hesta, heack⟩ := h.readNextByte statDataRxAck
  have hround : l.round slave =
      ⟨e.orCntr cntrIntFlag, l.line, l.wire ++ [Wire.received (slave i) true], i + 1⟩ := by
    rw [Link.round, Link.controller_read h.flag h.stp hsta hl, hack, if_pos rfl]
    dsimp only
    rw [Device.handleIsr_dataRx (by simp [Link.report]) rfl, ← he, h.received]
    rfl
  rw [hround]
  refine ⟨⟨?_, ?_, ?_, ?_, hstate, hhistory, hram, hqueue, rfl⟩, ?_, hl, ?_⟩
  · simp [Device.orCntr]
  · simp [Device.orCntr, hstp]
  · simp [h.wire]
  · simp [Device.orCntr, hloads]
  · simp [Device.orCntr, hesta, hsta]
  · simp [Device.orCntr, heack, hack]

/-- The byte that is not acknowledged ends the transfer. -/
theorem Receiving.round_nacked (h : Receiving slave d req wire loads i l)
    (hsta : (control l.device.regs.cntr).sta = false) (hl : l.line = .reading)
    (hack : (control l.device.regs.cntr).ack = false) :
    (l.round slave).wire = wire ++ [Wire.received (slave i) false] ∧
      (control (l.round slave).device.regs.cntr).stp = true ∧
      Outcome d req ((List.range (min (i+1) req.length.toNat)).map (.bufferWritten req))
        (d.ram.store req.buffer ((List.range (min (i+1) req.length.toNat)).map slave)) (loads.map (·.setWidth 32))
        (l.round slave).device := by
  obtain ⟨e, he, hstate, hhistory, hram, hqueue, hloads, hstp, hesta, -⟩ := h.readNextByte statDataRxNack
  have hround : l.round slave = ⟨e.finish .ok, l.line, l.wire ++ [Wire.received (slave i) false], i + 1⟩ := by
    rw [Link.round, Link.controller_read h.flag h.stp hsta hl, hack, if_neg (by decide)]
    dsimp only
    rw [Device.handleIsr_dataRxNack (by simp [Link.report]) rfl, ← he, h.received]
    rfl
  have hf := e.finish_finished .ok
  rw [hround]
  refine ⟨by rw [h.wire], hf.stp, hf.outcome (hesta.trans hsta) hloads ?_ hhistory hram hqueue⟩
  rw [hstate]

/-- The STOP leaves the bus idle, and there is nothing to handle. -/
theorem round_stop (hf : (control l.device.regs.cntr).flag = false) (hstp : (control l.device.regs.cntr).stp = true) :
    l.round slave =
      { l with
        device.regs.cntr := l.device.regs.cntr &&& ~~~cntrMStp
        line := .idle
        wire := l.wire ++ [Wire.stop] } := by
  rw [Link.round, Link.controller_stop hf hstp]
  dsimp only
  rw [Device.handleIsr_of_idle (by simp [hf])]

end Rounds
end IoProcessor.Hal.Twi
