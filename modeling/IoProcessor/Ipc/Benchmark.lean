import IoProcessor.Ipc.RingSafety

/-! What the benchmark sends: its messages are numbered, and the number lies in
the payload of the message's slot for as long as the message is in the ring. -/
namespace IoProcessor.Ipc
open Library FreeRunning History

/-- The two payload bytes of a slot hold a number. -/
def Carries (s : State) (slot n : Word) : Prop :=
  s.payloads slot 0 = n.setWidth 8 ∧ s.payloads slot 1 = (n >>> 8).setWidth 8

/-- The fields that the sender fills in, for a slot of the pool. -/
structure Describes (pool slot : Word) (d : IpcDescriptor) : Prop where
  dramPayloadAddr : d.dramPayloadAddr = pool + 256 * slot
  length : d.length = 256
  msgType : d.msgType = imuBurstData

/-- What the stores so far have left in the slot. -/
structure FilledSoFar (pool slot : Word) (s : State) (stage : Nat) : Prop where
  low : 1 ≤ stage → s.payloads slot 0 = s.seq.setWidth 8
  high : 2 ≤ stage → s.payloads slot 1 = (s.seq >>> 8).setWidth 8
  dramPayloadAddr : 3 ≤ stage → (s.ring.descriptors slot).dramPayloadAddr = pool + 256 * slot
  length : 4 ≤ stage → (s.ring.descriptors slot).length = 256
  msgType : 5 ≤ stage → (s.ring.descriptors slot).msgType = imuBurstData

structure Numbered (pool start first : Word) (s : State) : Prop where
  seq : s.seq = first + BitVec.ofNat 32 s.made
  payload : ∀ i, s.taken ≤ i → i < s.made → Carries s (ringSlot (index start i)) (first + BitVec.ofNat 32 i)
  message : ∀ i d, (producedOf s.trace)[i]? = some d → Describes pool (ringSlot (index start i)) d
  filling : ∀ head stage, s.producer = .filling head stage → FilledSoFar pool (ringSlot head) s stage

variable {pool start first : Word} {s : State}

theorem numbered_init (pool start : Word) (descriptors : Word → IpcDescriptor) (payloads : Word → Nat → Byte)
    (first : Word) : Numbered pool start first (init start descriptors payloads first) := by
  constructor <;> simp [init, State.made, State.taken]

/-- A step that moves a program counter, but not into the filling phase. -/
theorem Numbered.local_step (h : Numbered pool start first s) {p : Producer} (c : Consumer)
    (hp : ∀ head stage, p = .filling head stage → FilledSoFar pool (ringSlot head) s stage) :
    Numbered pool start first { s with producer := p, consumer := c } :=
  ⟨h.seq, h.payload, h.message, fun head stage he =>
    let f := hp head stage he
    ⟨f.low, f.high, f.dramPayloadAddr, f.length, f.msgType⟩⟩

/-- A store of the filling phase fills in its own part of the slot. -/
theorem FilledSoFar.fill {slot : Word} {stage : Nat} (h : FilledSoFar pool slot s stage) (timestamp : Word)
    (hstage : stage < 6) : FilledSoFar pool slot (fill pool timestamp s slot stage) (stage + 1) := by
  obtain ⟨hlow, hhigh, haddr, hlen, htype⟩ := h
  match stage with
  | 0 | 1 | 2 | 3 | 4 | 5 => constructor <;> simp_all [Ipc.fill, writePayload, writeDescriptor]

/-- The other slots keep their payloads. -/
theorem fill_other (timestamp : Word) (s : State) {slot x : Word} (hx : x ≠ slot) (stage : Nat) :
    (fill pool timestamp s slot stage).payloads x = s.payloads x := by
  unfold fill
  split <;> simp [writePayload, writeDescriptor, Function.update_of_ne hx]

theorem fill_keeps (pool timestamp : Word) (s : State) (slot : Word) (stage : Nat) :
    producedOf (fill pool timestamp s slot stage).trace = producedOf s.trace ∧
      consumedOf (fill pool timestamp s slot stage).trace = consumedOf s.trace ∧
      (fill pool timestamp s slot stage).seq = s.seq := by
  unfold fill
  split <;> simp [writePayload, writeDescriptor]

theorem Numbered.fill (h : Numbered pool start first s) (hs : Safe start s) (timestamp : Word)
    {head : Word} {stage : Nat} (hp : s.producer = .filling head stage) (hstage : stage < 6) :
    Numbered pool start first
      { Ipc.fill pool timestamp s (ringSlot head) stage with producer := .filling head (stage + 1) } := by
  have hok := hs.producer
  rw [ProducerOk, hp] at hok
  obtain ⟨rfl, hroom⟩ := hok
  obtain ⟨hprod, hcon, hseq⟩ := fill_keeps pool timestamp s (ringSlot s.ring.head) stage
  have hnext := (h.filling _ _ hp).fill timestamp hstage
  set u := Ipc.fill pool timestamp s (ringSlot s.ring.head) stage with hu
  have hmade : u.made = s.made := congrArg List.length hprod
  have htaken : u.taken = s.taken := congrArg List.length hcon
  refine ⟨?_, fun i hi hlt => ?_, fun i d hd => ?_, fun head' stage' he => ?_⟩
  · exact hseq.trans (hmade ▸ h.seq)
  · change u.taken ≤ i at hi
    change i < u.made at hlt
    rw [htaken] at hi
    rw [hmade] at hlt
    have hother : ringSlot (index start i) ≠ ringSlot s.ring.head := fun he => hs.not_live hroom ⟨i, hi, hlt, he⟩
    have hkept : u.payloads (ringSlot (index start i)) = s.payloads (ringSlot (index start i)) :=
      fill_other _ _ hother _
    have hold := h.payload i hi hlt
    rw [Carries] at hold ⊢
    simpa only [hkept] using hold
  · exact h.message i d (hprod ▸ hd)
  · cases he
    exact ⟨hnext.low, hnext.high, hnext.dramPayloadAddr, hnext.length, hnext.msgType⟩

/-- The store of the head turns the filled slot into the next message. -/
theorem Numbered.publish (h : Numbered pool start first s) (hs : Safe start s) {head : Word} {stage : Nat}
    (hp : s.producer = .filling head stage) (hstage : 6 ≤ stage) : Numbered pool start first (publish s head) := by
  have hok := hs.producer
  rw [ProducerOk, hp] at hok
  obtain ⟨rfl, hroom⟩ := hok
  have hfilled := h.filling _ _ hp
  have hprod : producedOf (Ipc.publish s s.ring.head).trace =
      producedOf s.trace ++ [s.ring.descriptors (ringSlot s.ring.head)] := by simp [Ipc.publish]
  have hcon : consumedOf (Ipc.publish s s.ring.head).trace = consumedOf s.trace := by simp [Ipc.publish]
  have hmade : (Ipc.publish s s.ring.head).made = s.made + 1 := by
    rw [State.made, hprod, List.length_append]
    rfl
  have htaken : (Ipc.publish s s.ring.head).taken = s.taken := congrArg List.length hcon
  have hhead : ringSlot (index start s.made) = ringSlot s.ring.head := congrArg ringSlot hs.head.symm
  refine ⟨?_, fun i hi hlt => ?_, fun i d hd => ?_, fun _ _ he => by cases he⟩
  · rw [hmade, BitVec.ofNat_add, ← BitVec.add_assoc, ← h.seq]
    rfl
  · rw [htaken] at hi
    rw [hmade] at hlt
    by_cases hnew : i = s.made
    · rw [hnew, hhead, ← h.seq]
      exact ⟨hfilled.low (by omega), hfilled.high (by omega)⟩
    · exact h.payload i hi (by omega)
  · rw [hprod] at hd
    rcases Nat.lt_or_ge i s.made with hold | hnew
    · rw [List.getElem?_append_left hold] at hd
      exact h.message i d hd
    · obtain rfl : i = s.made := by
        have hlt := (List.getElem?_eq_some_iff.mp hd).1
        rw [List.length_append, List.length_singleton, ← State.made] at hlt
        omega
      rw [State.made, List.getElem?_concat_length] at hd
      obtain rfl := Option.some.inj hd
      rw [hhead]
      exact ⟨hfilled.dramPayloadAddr (by omega), hfilled.length (by omega), hfilled.msgType (by omega)⟩

theorem Numbered.producerStep (h : Numbered pool start first s) (hs : Safe start s) (timestamp : Word) :
    Numbered pool start first (producerStep pool s timestamp) := by
  unfold Ipc.producerStep
  cases hp : s.producer with
  | idle => exact h.local_step s.consumer fun _ _ he => by cases he
  | loadedHead head => exact h.local_step s.consumer fun _ _ he => by cases he
  | loadedTail head tail =>
    simp only
    split
    · refine h.local_step s.consumer fun _ _ he => ?_
      cases he
      constructor <;> omega
    · exact h.local_step s.consumer fun _ _ he => by cases he
  | filling head stage =>
    simp only
    split
    · exact h.fill hs timestamp hp (by assumption)
    · exact h.publish hs hp (by omega)

theorem Numbered.consumerStep (h : Numbered pool start first s) : Numbered pool start first (consumerStep s) := by
  unfold Ipc.consumerStep
  cases hc : s.consumer with
  | idle => exact h.local_step _ h.filling
  | loadedHead head => exact h.local_step _ h.filling
  | looping head tail =>
    simp only
    split <;> exact h.local_step _ h.filling
  | reading head tail stage copy =>
    simp only
    split
    · exact h.local_step _ h.filling
    · set u : State := { s with
        ring.tail := tail + 1
        consumer := .looping head (tail + 1)
        trace := s.trace ++ [.consumed copy] }
      have hprod : producedOf u.trace = producedOf s.trace := by simp [u]
      have hmade : u.made = s.made := congrArg List.length hprod
      have htaken : u.taken = s.taken + 1 := by simp [u, State.taken]
      refine ⟨hmade ▸ h.seq, fun i hi hlt => h.payload i (by omega) (hmade ▸ hlt),
        fun i d hd => h.message i d (hprod ▸ hd), fun head' stage' he => ?_⟩
      have f := h.filling head' stage' he
      exact ⟨f.low, f.high, f.dramPayloadAddr, f.length, f.msgType⟩

theorem run_numbered (pool start : Word) (descriptors : Word → IpcDescriptor) (payloads : Word → Nat → Byte)
    (first : Word) (acts : List Action) :
    Safe start (run (step pool) (init start descriptors payloads first) acts) ∧
      Numbered pool start first (run (step pool) (init start descriptors payloads first) acts) := by
  have hkeep : ∀ (s : State) (a : Action), Safe start s ∧ Numbered pool start first s →
      Safe start (step pool s a) ∧ Numbered pool start first (step pool s a) := by
    intro s a h
    cases a with
    | producer timestamp => exact ⟨h.1.producerStep timestamp, h.2.producerStep h.1 timestamp⟩
    | consumer => exact ⟨h.1.consumerStep, h.2.consumerStep⟩
  exact run_invariant hkeep
    ⟨safe_init start descriptors payloads first, numbered_init pool start descriptors payloads first⟩ acts

/-- Over every interleaving and any number of wraps, the messages that the
receiver takes are numbered without a gap or a repetition: the one with a given
number names the slot of its place in the ring, and while the receiver has a
message in its hands the payload of that slot is the message's number. -/
theorem messages_numbered (pool start : Word) (descriptors : Word → IpcDescriptor) (payloads : Word → Nat → Byte)
    (first : Word) (acts : List Action) :
    let s := run (step pool) (init start descriptors payloads first) acts
    (∀ i d, (consumedOf s.trace)[i]? = some d → Describes pool (ringSlot (index start i)) d) ∧
      ∀ head tail stage copy, s.consumer = .reading head tail stage copy →
        tail = index start s.taken ∧ Carries s (ringSlot tail) (first + BitVec.ofNat 32 s.taken) := by
  intro s
  obtain ⟨hs, h⟩ : Safe start s ∧ Numbered pool start first s := run_numbered pool start descriptors payloads first acts
  constructor
  · intro i d hd
    obtain ⟨rest, hrest⟩ := hs.delivered
    refine h.message i d ?_
    rw [← hrest, List.getElem?_append_left (List.getElem?_eq_some_iff.mp hd).1]
    exact hd
  · intro head tail stage copy hc
    have hok := hs.consumer
    rw [ConsumerOk, hc] at hok
    obtain ⟨rfl, ⟨p, hp, hpm, -⟩, -⟩ := hok
    exact ⟨hs.tail, hs.tail ▸ h.payload s.taken le_rfl (by omega)⟩

end IoProcessor.Ipc
