import IoProcessor.Hal.Twi

/-! The register accesses of one call of TwiDriver's handler, and which of the
CNTR writes acknowledge an interrupt. -/
namespace IoProcessor.Hal.Twi
open Library MemoryMap

/-- A write of DATA, or one of the three kinds of read-modify-write of CNTR:
bits set, bits cleared, and the START that `begin` requests. -/
inductive Access where
  | data (v : Word)
  | set (bits : Word)
  | clear (bits : Word)
  | start
  deriving DecidableEq, Repr

/-- What is written to CNTR when it reads as given. -/
def Access.written (seen : Word) : Access → Option Word
  | .data _ => none
  | .set bits => some (seen ||| bits)
  | .clear bits => some (seen &&& ~~~bits)
  | .start => some (seen ||| cntrMSta)

def Access.apply (r : Regs) : Access → Regs
  | .data v => r.writeData v
  | .set bits => r.writeCntr (r.cntr ||| bits)
  | .clear bits => r.writeCntr (r.cntr &&& ~~~bits)
  | .start => r.writeCntr (r.cntr ||| cntrMSta)

namespace Device

/-- The accesses of `finish`, which begins the next request if there is one. -/
def finishAccesses (d : Device) : List Access :=
  [Access.set cntrMStp, .set cntrIntFlag] ++ if d.queue.toList = [] then [] else [.start]

def writeNextByteAccesses (d : Device) : List Access :=
  if d.state.index ≥ d.state.request.length then d.finishAccesses
  else [.data ((d.ram (d.state.request.buffer + d.state.index.setWidth 32)).setWidth 32)]

def readNextByteAccesses (d : Device) : List Access :=
  if d.storeByte.state.index.toNat + 1 ≥ d.storeByte.state.request.length.toNat then [.clear cntrAck] else []

/-- The accesses of `handle_isr` behind its first read of CNTR, in order. -/
def isrAccesses (d : Device) : List Access :=
  if d.regs.cntr &&& cntrIntFlag = 0 then []
  else if d.regs.stat = statStart ∨ d.regs.stat = statRepeatStart then
    [.data ((d.state.address.setWidth 32 <<< 1) ||| (if d.state.phaseIsRead then 1 else 0)), .set cntrIntFlag]
  else if d.regs.stat = statAddrWAck then
    (if d.state.sentRegAddr then d.writeNextByteAccesses else [.data (d.state.regAddr.setWidth 32)]) ++
      [Access.set cntrIntFlag]
  else if d.regs.stat = statDataTxAck then
    (if d.state.request.isRead ∧ d.state.sentRegAddr ∧ d.state.index = 0 then [.set cntrMSta]
      else d.writeNextByteAccesses) ++ [Access.set cntrIntFlag]
  else if d.regs.stat = statAddrRAck then [.set cntrAck, .set cntrIntFlag]
  else if d.regs.stat = statDataRxAck then d.readNextByteAccesses ++ [Access.set cntrIntFlag]
  else if d.regs.stat = statDataRxNack then d.readNextByteAccesses ++ d.finishAccesses
  else d.finishAccesses

theorem writeResult_frame (d : Device) (result : TwiResult) :
    (d.writeResult result).regs = d.regs ∧ (d.writeResult result).queue = d.queue := by
  unfold writeResult
  split <;> exact ⟨rfl, rfl⟩

theorem post_frame (d : Device) (req : TwiRequest) : (d.post req).regs = d.regs ∧ (d.post req).queue = d.queue := by
  unfold post
  split <;> exact ⟨rfl, rfl⟩

theorem begin_regs (d : Device) (req : TwiRequest) : (d.begin req).regs = Access.start.apply d.regs := rfl

theorem beginNext_regs (d : Device) :
    d.beginNext.regs = (if d.queue.toList = [] then [] else [Access.start]).foldl Access.apply d.regs := by
  unfold beginNext
  rcases d.queue.pop_cases with ⟨hp, hq⟩ | ⟨req, q, hp, hq⟩
  · rw [hp, if_pos hq]
    rfl
  · rw [hp, if_neg (by simp [hq])]
    exact begin_regs _ req

theorem finish_regs (d : Device) (result : TwiResult) :
    (d.finish result).regs = d.finishAccesses.foldl Access.apply d.regs := by
  unfold finish
  rw [beginNext_regs, (post_frame _ _).1, (post_frame _ _).2, finishAccesses, List.foldl_append]
  simp only [(writeResult_frame _ _).1, (writeResult_frame _ _).2]
  rfl

theorem writeNextByte_regs (d : Device) :
    d.writeNextByte.regs = d.writeNextByteAccesses.foldl Access.apply d.regs := by
  unfold writeNextByte writeNextByteAccesses
  split
  · exact d.finish_regs .ok
  · rfl

theorem storeByte_frame (d : Device) : d.storeByte.regs = d.regs ∧ d.storeByte.queue = d.queue := by
  unfold storeByte
  split <;> exact ⟨rfl, rfl⟩

theorem readNextByte_frame (d : Device) :
    d.readNextByte.regs = d.readNextByteAccesses.foldl Access.apply d.regs ∧ d.readNextByte.queue = d.queue := by
  obtain ⟨hr, hq⟩ := d.storeByte_frame
  unfold readNextByte readNextByteAccesses
  simp only
  split
  · exact ⟨by rw [hr]; rfl, hq⟩
  · exact ⟨hr, hq⟩

/-- The handler makes these accesses and no others. -/
theorem handleIsr_regs (d : Device) : d.handleIsr.regs = d.isrAccesses.foldl Access.apply d.regs := by
  have branch {c : Prop} [Decidable c] {a b : Device} {x y : List Access}
      (ha : a.regs = x.foldl Access.apply d.regs) (hb : b.regs = y.foldl Access.apply d.regs) :
      (if c then a else b).regs = (if c then x else y).foldl Access.apply d.regs := by
    split
    · exact ha
    · exact hb
  have tail {e : Device} {x : List Access} (he : e.regs = x.foldl Access.apply d.regs) :
      (e.orCntr cntrIntFlag).regs = (x ++ [Access.set cntrIntFlag]).foldl Access.apply d.regs := by
    rw [List.foldl_append, ← he]
    rfl
  have hread := (readNextByte_frame d).1
  have hnack : (d.readNextByte.finish .ok).regs =
      (d.readNextByteAccesses ++ d.finishAccesses).foldl Access.apply d.regs := by
    rw [finish_regs, List.foldl_append, hread]
    unfold finishAccesses
    rw [(readNextByte_frame d).2]
  unfold handleIsr isrAccesses
  refine branch rfl (branch rfl (branch (tail (branch d.writeNextByte_regs rfl)) ?_))
  refine branch (tail (branch rfl d.writeNextByte_regs)) (branch rfl (branch (tail hread) (branch hnack ?_)))
  split <;> exact d.finish_regs _

/-- Whatever CNTR reads as behind the START of the next request, no write of the
call has INT_FLAG set there. -/
def StartKept (d : Device) : Prop :=
  ∀ (seen : Nat → Word) (before after : List Access), d.isrAccesses = before ++ .start :: after →
    ∀ (k : Nat) (access : Access) (v : Word), after[k]? = some access → access.written (seen k) = some v → v &&& cntrIntFlag = 0

/-- The handler finishes a request within `write_next_byte` while another one is
queued. -/
def FinishesWriting (d : Device) : Prop :=
  d.regs.cntr &&& cntrIntFlag ≠ 0 ∧
    (d.regs.stat = statAddrWAck ∧ d.state.sentRegAddr = true ∨
      d.regs.stat = statDataTxAck ∧ ¬ (d.state.request.isRead ∧ d.state.sentRegAddr ∧ d.state.index = 0)) ∧
    d.state.request.length ≤ d.state.index ∧ d.queue.toList ≠ []

/-- A START is the last access of a list, if there is one. -/
def StartLast (accesses : List Access) : Prop := ∀ before after, accesses = before ++ .start :: after → after = []

theorem startLast_of_not_mem {accesses : List Access} (h : .start ∉ accesses) : StartLast accesses := by
  rintro before after rfl
  exact absurd (by simp) h

theorem startLast_concat {accesses : List Access} (h : .start ∉ accesses) : StartLast (accesses ++ [Access.start]) := by
  intro before after he
  obtain ⟨-, -, hr⟩ | ⟨rest, hr, -⟩ := History.split_concat he
  · exact hr
  · exact absurd (hr ▸ by simp) h

theorem startLast_finish (d : Device) {accesses : List Access} (h : .start ∉ accesses) :
    StartLast (accesses ++ d.finishAccesses) := by
  unfold finishAccesses
  split
  · exact startLast_of_not_mem (by simp [h])
  · rw [← List.append_assoc]
    exact startLast_concat (by simp [h])

theorem writeNextByteAccesses_cases (d : Device) :
    ((d.state.request.length ≤ d.state.index ∧ d.queue.toList ≠ []) ∧
        d.writeNextByteAccesses = [.set cntrMStp, .set cntrIntFlag, .start]) ∨
      (¬ (d.state.request.length ≤ d.state.index ∧ d.queue.toList ≠ []) ∧ .start ∉ d.writeNextByteAccesses) := by
  unfold writeNextByteAccesses finishAccesses
  by_cases hl : d.state.request.length ≤ d.state.index
  · by_cases hq : d.queue.toList = []
    · right
      simp [hl, hq]
    · left
      simp [hl, hq]
  · right
    simp [hl]

theorem start_mem_readNextByteAccesses (d : Device) : .start ∉ d.readNextByteAccesses := by
  unfold readNextByteAccesses
  split <;> simp

/-- The tail of the handler, behind accesses that request no START. -/
theorem startLast_tail {accesses : List Access} (h : .start ∉ accesses) :
    StartLast (accesses ++ [Access.set cntrIntFlag]) := startLast_of_not_mem (by simp [h])

/-- The tail of the handler, behind `write_next_byte`. -/
theorem writing_cases (d : Device) (hflag : d.regs.cntr &&& cntrIntFlag ≠ 0)
    (hstat : d.regs.stat = statAddrWAck ∧ d.state.sentRegAddr = true ∨
      d.regs.stat = statDataTxAck ∧ ¬ (d.state.request.isRead ∧ d.state.sentRegAddr ∧ d.state.index = 0)) :
    (d.FinishesWriting ∧ d.writeNextByteAccesses ++ [Access.set cntrIntFlag] =
        [.set cntrMStp, .set cntrIntFlag, .start, .set cntrIntFlag]) ∨
      (¬ d.FinishesWriting ∧ StartLast (d.writeNextByteAccesses ++ [Access.set cntrIntFlag])) := by
  rcases d.writeNextByteAccesses_cases with ⟨hl, he⟩ | ⟨hl, he⟩
  · rw [he]
    exact .inl ⟨⟨hflag, hstat, hl⟩, rfl⟩
  · exact .inr ⟨fun h => hl h.2.2, startLast_tail he⟩

/-- A handler that reports another status does not write on. -/
theorem not_finishesWriting {d : Device} (hw : d.regs.stat = statAddrWAck → d.state.sentRegAddr = false)
    (ht : d.regs.stat = statDataTxAck → d.state.request.isRead ∧ d.state.sentRegAddr ∧ d.state.index = 0) :
    ¬ d.FinishesWriting := by
  rintro ⟨-, ⟨h, hs⟩ | ⟨h, hs⟩, -⟩
  · exact Bool.noConfusion ((hw h).symm.trans hs)
  · exact hs (ht h)

/-- Behind a START that is not the last access comes the tail of the handler. -/
theorem isrAccesses_cases (d : Device) :
    (d.FinishesWriting ∧ d.isrAccesses = [.set cntrMStp, .set cntrIntFlag, .start, .set cntrIntFlag]) ∨
      (¬ d.FinishesWriting ∧ StartLast d.isrAccesses) := by
  unfold isrAccesses
  by_cases hflag : d.regs.cntr &&& cntrIntFlag = 0
  · rw [if_pos hflag]
    exact .inr ⟨fun h => h.1 hflag, startLast_of_not_mem (by simp)⟩
  rw [if_neg hflag]
  by_cases hw : d.regs.stat = statAddrWAck
  · rw [if_neg (by rw [hw]; decide), if_pos hw]
    by_cases hs : d.state.sentRegAddr = true
    · rw [if_pos hs]
      exact d.writing_cases hflag (.inl ⟨hw, hs⟩)
    · rw [if_neg hs]
      refine .inr ⟨not_finishesWriting (fun _ => by simpa using hs) fun ht => ?_, startLast_tail (by simp)⟩
      exact absurd (hw.symm.trans ht) (by decide)
  by_cases ht : d.regs.stat = statDataTxAck
  · rw [if_neg (by rw [ht]; decide), if_neg hw, if_pos ht]
    by_cases hr : d.state.request.isRead ∧ d.state.sentRegAddr ∧ d.state.index = 0
    · rw [if_pos hr]
      exact .inr ⟨not_finishesWriting (fun h => absurd h hw) fun _ => hr, startLast_tail (by simp)⟩
    · rw [if_neg hr]
      exact d.writing_cases hflag (.inr ⟨ht, hr⟩)
  rw [if_neg hw, if_neg ht]
  refine .inr ⟨not_finishesWriting (fun h => absurd h hw) fun h => absurd h ht, ?_⟩
  refine iteInduction (fun _ => startLast_of_not_mem (by simp)) fun _ => ?_
  refine iteInduction (fun _ => startLast_of_not_mem (by simp)) fun _ => ?_
  refine iteInduction (fun _ => startLast_tail d.start_mem_readNextByteAccesses) fun _ => ?_
  refine iteInduction (fun _ => d.startLast_finish d.start_mem_readNextByteAccesses) fun _ => ?_
  have hfinish : StartLast ([] ++ d.finishAccesses) := d.startLast_finish (by simp)
  exact hfinish

/-- Finishing a request acknowledges the next one's interrupt exactly where
`finish` is reached through `write_next_byte`. -/
theorem start_interrupt_kept_iff (d : Device) : d.StartKept ↔ ¬ d.FinishesWriting := by
  rcases d.isrAccesses_cases with ⟨hf, ha⟩ | ⟨hf, ha⟩
  · refine iff_of_false (fun h => ?_) (not_not.mpr hf)
    have hv := h (fun _ => 0) [.set cntrMStp, .set cntrIntFlag] [.set cntrIntFlag] ha 0 _ _ rfl rfl
    revert hv
    decide
  · refine iff_of_true ?_ hf
    intro seen before after he k access v hk
    rw [ha before after he] at hk
    cases hk

/-- A one-byte write whose byte is on the bus, with another request queued. -/
private def backToBack : Device where
  queue := ((DriverRequestQueue.init : DriverRequestQueue TwiRequest).push
    ⟨some 2, 0x07150010, 1, 0x68, 0x20, false, none, 2⟩).2
  state := ⟨⟨some 1, 0x07150000, 1, 0x68, 0x10, false, none, 1⟩, 1, 0x68, 0x10, true, false, true⟩
  history := []
  regs := ⟨cntrBusEn ||| cntrIntEn ||| cntrIntFlag, statDataTxAck, 0, []⟩
  ram _ := 0

/-- The controller reports the START at once, and the handler clears the flag. -/
theorem next_start_acknowledged :
    let start : Regs := [Access.set cntrMStp, .set cntrIntFlag, .start].foldl Access.apply backToBack.regs
    let reported : Regs := { start with cntr := start.cntr ||| cntrIntFlag, stat := statStart }
    backToBack.isrAccesses = [.set cntrMStp, .set cntrIntFlag, .start] ++ [Access.set cntrIntFlag] ∧
      ((Access.set cntrIntFlag).apply reported).cntr &&& cntrIntFlag = 0 ∧ ¬ backToBack.StartKept := by
  intro start reported
  have ha : backToBack.isrAccesses = [.set cntrMStp, .set cntrIntFlag, .start] ++ [Access.set cntrIntFlag] := by decide
  refine ⟨ha, by decide, ?_⟩
  intro h
  have hv := h (fun _ => 0) [.set cntrMStp, .set cntrIntFlag] [.set cntrIntFlag] ha 0 _ _ rfl rfl
  revert hv
  decide

end Device
end IoProcessor.Hal.Twi
