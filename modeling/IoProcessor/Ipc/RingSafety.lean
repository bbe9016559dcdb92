import IoProcessor.Ipc.Ring
import IoProcessor.Library.SpscRing

/-! Safety of the ring over every interleaving of the two sides, through any
number of wraps of the 32-bit indices. -/
namespace IoProcessor.Ipc
open Library FreeRunning History SpscRing

/-- Messages produced and messages consumed so far. -/
def State.made (s : State) : Nat := (producedOf s.trace).length
def State.taken (s : State) : Nat := (consumedOf s.trace).length

/-- A slot that holds a message produced and not yet consumed. -/
def Live (start : Word) (t : List Event) (slot : Word) : Prop :=
  ∃ i, (consumedOf t).length ≤ i ∧ i < (producedOf t).length ∧ ringSlot (index start i) = slot

def SlotFree (start : Word) (pre : List Event) : Event → Prop
  | .payloadWritten slot | .descriptorWritten slot => ¬ Live start pre slot
  | _ => True

/-- The copy agrees with the descriptor on the fields read so far. -/
def ReadSoFar (d copy : IpcDescriptor) (stage : Nat) : Prop :=
  (1 ≤ stage → copy.dramPayloadAddr = d.dramPayloadAddr) ∧ (2 ≤ stage → copy.length = d.length) ∧
    (3 ≤ stage → copy.msgType = d.msgType) ∧ (4 ≤ stage → copy.flags = d.flags) ∧
    (5 ≤ stage → copy.timestampUs = d.timestampUs)

/-- The producer's copy of its own index is exact; its copy of the other one
may be old, which makes the ring look fuller than it is. -/
def ProducerOk (start : Word) (s : State) : Prop :=
  match s.producer with
  | .idle => True
  | .loadedHead head => head = s.ring.head
  | .loadedTail head tail =>
    head = s.ring.head ∧ ∃ c, c ≤ s.taken ∧ s.made ≤ c + 128 ∧ tail = index start c
  | .filling head _ => head = s.ring.head ∧ s.made < s.taken + 128

/-- The consumer's copy of the other index may be old, which makes the ring
look emptier than it is. -/
def ConsumerOk (start : Word) (s : State) : Prop :=
  match s.consumer with
  | .idle => True
  | .loadedHead head => ∃ p, s.taken ≤ p ∧ p ≤ s.made ∧ head = index start p
  | .looping head tail => tail = s.ring.tail ∧ ∃ p, s.taken ≤ p ∧ p ≤ s.made ∧ head = index start p
  | .reading head tail stage copy =>
    tail = s.ring.tail ∧ (∃ p, s.taken < p ∧ p ≤ s.made ∧ head = index start p) ∧
      ∀ d, (producedOf s.trace)[s.taken]? = some d → ReadSoFar d copy stage

structure Safe (start : Word) (s : State) : Prop where
  head : s.ring.head = index start s.made
  tail : s.ring.tail = index start s.taken
  ordered : s.taken ≤ s.made
  bounded : s.made ≤ s.taken + 128
  live : ∀ i, s.taken ≤ i → i < s.made →
    (producedOf s.trace)[i]? = some (s.ring.descriptors (ringSlot (index start i)))
  delivered : consumedOf s.trace <+: producedOf s.trace
  producer : ProducerOk start s
  consumer : ConsumerOk start s
  untouched : AtEvery (SlotFree start) s.trace

variable {start pool : Word} {s t : State}

theorem safe_init (start : Word) (descriptors : Word → IpcDescriptor) (payloads : Word → Nat → Byte) (seq : Word) :
    Safe start (init start descriptors payloads seq) := by
  constructor <;> simp [init, State.made, State.taken, ProducerOk, ConsumerOk, index_zero]

theorem Safe.window (h : Safe start s) : Window 7 start s.ring.head s.ring.tail s.ring.descriptors
    (producedOf s.trace) (consumedOf s.trace) where
  head := h.head
  tail := h.tail
  bounded := h.bounded
  delivered := h.delivered
  live := h.live

theorem Safe.of_window (hw : Window 7 start s.ring.head s.ring.tail s.ring.descriptors (producedOf s.trace)
    (consumedOf s.trace)) (hp : ProducerOk start s) (hc : ConsumerOk start s)
    (hu : AtEvery (SlotFree start) s.trace) : Safe start s :=
  ⟨hw.head, hw.tail, hw.ordered, hw.bounded, hw.live, hw.delivered, hp, hc, hu⟩

/-- Entries of a ring with fewer than 128 messages are away from the slot that
is filled next. -/
theorem Safe.not_live (h : Safe start s) (hroom : s.made < s.taken + 128) :
    ¬ Live start s.trace (ringSlot s.ring.head) := by
  rintro ⟨i, hc, hp, hs⟩
  exact h.window.slot_free (by omega) hroom hc hp hs

/-- Steps of the producer leave what the consumer relies on. -/
theorem ConsumerOk.of_producer (h : ConsumerOk start s) (hc : t.consumer = s.consumer)
    (ht : t.ring.tail = s.ring.tail) (hk : consumedOf t.trace = consumedOf s.trace)
    (hp : producedOf s.trace <+: producedOf t.trace) : ConsumerOk start t := by
  have htaken : t.taken = s.taken := congrArg List.length hk
  have hmade : s.made ≤ t.made := hp.length_le
  unfold ConsumerOk at h ⊢
  rw [hc]
  cases hs : s.consumer with
  | idle => trivial
  | loadedHead head =>
    rw [hs] at h
    obtain ⟨p, h1, h2, h3⟩ := h
    exact ⟨p, by omega, by omega, h3⟩
  | looping head tail =>
    rw [hs] at h
    obtain ⟨h0, p, h1, h2, h3⟩ := h
    exact ⟨by rw [ht, h0], p, by omega, by omega, h3⟩
  | reading head tail stage copy =>
    rw [hs] at h
    obtain ⟨h0, ⟨p, h1, h2, h3⟩, hr⟩ := h
    refine ⟨by rw [ht, h0], ⟨p, by omega, by omega, h3⟩, fun d hd => hr d ?_⟩
    obtain ⟨rest, hrest⟩ := hp
    have hlt : s.taken < (producedOf s.trace).length := lt_of_lt_of_le h1 h2
    rwa [htaken, ← hrest, List.getElem?_append_left hlt] at hd

/-- Steps of the consumer leave what the producer relies on. -/
theorem ProducerOk.of_consumer (h : ProducerOk start s) (hc : t.producer = s.producer)
    (hh : t.ring.head = s.ring.head) (hp : producedOf t.trace = producedOf s.trace)
    (hk : s.taken ≤ t.taken) : ProducerOk start t := by
  have hmade : t.made = s.made := congrArg List.length hp
  unfold ProducerOk at h ⊢
  rw [hc]
  cases hs : s.producer with
  | idle => trivial
  | loadedHead head =>
    rw [hs] at h
    exact h.trans hh.symm
  | loadedTail head tail =>
    rw [hs] at h
    obtain ⟨h0, c, h1, h2, h3⟩ := h
    exact ⟨h0.trans hh.symm, c, by omega, by omega, h3⟩
  | filling head stage =>
    rw [hs] at h
    exact ⟨h.1.trans hh.symm, by omega⟩

/-- A step that only moves the program counters. -/
theorem Safe.local_step (h : Safe start s) {p : Producer} {c : Consumer}
    (hp : ProducerOk start { s with producer := p, consumer := c })
    (hc : ConsumerOk start { s with producer := p, consumer := c }) :
    Safe start { s with producer := p, consumer := c } :=
  ⟨h.head, h.tail, h.ordered, h.bounded, h.live, h.delivered, hp, hc, h.untouched⟩

/-- Every store of the filling phase is to one slot and nothing else. -/
private theorem fill_spec (pool timestamp : Word) (s : State) (slot : Word) (stage : Nat) :
    ∃ e, (e = .payloadWritten slot ∨ e = .descriptorWritten slot) ∧
      (fill pool timestamp s slot stage).trace = s.trace ++ [e] ∧
      (fill pool timestamp s slot stage).ring.head = s.ring.head ∧
      (fill pool timestamp s slot stage).ring.tail = s.ring.tail ∧
      (fill pool timestamp s slot stage).consumer = s.consumer ∧
      ∀ x, x ≠ slot → (fill pool timestamp s slot stage).ring.descriptors x = s.ring.descriptors x := by
  unfold fill
  split
  case h_1 | h_2 => exact ⟨_, .inl rfl, rfl, rfl, rfl, rfl, fun x _ => rfl⟩
  all_goals exact ⟨_, .inr rfl, rfl, rfl, rfl, rfl, fun x hx => Function.update_of_ne hx _ _⟩

theorem Safe.fill (h : Safe start s) (timestamp : Word) {head : Word} {stage : Nat}
    (hp : s.producer = .filling head stage) :
    Safe start { fill pool timestamp s (ringSlot head) stage with producer := .filling head (stage + 1) } := by
  have hok := h.producer
  rw [ProducerOk, hp] at hok
  obtain ⟨rfl, hroom⟩ := hok
  obtain ⟨e, he, htrace, hhead, htail, hcons, hdesc⟩ := fill_spec pool timestamp s (ringSlot s.ring.head) stage
  set u := Ipc.fill pool timestamp s (ringSlot s.ring.head) stage
  have hfree := h.not_live hroom
  have hprod : producedOf u.trace = producedOf s.trace := by rcases he with rfl | rfl <;> simp [htrace]
  have hcon : consumedOf u.trace = consumedOf s.trace := by rcases he with rfl | rfl <;> simp [htrace]
  have hmade : u.made = s.made := congrArg List.length hprod
  have htaken : u.taken = s.taken := congrArg List.length hcon
  apply Safe.of_window
  case hw =>
    simp only [hhead, htail, hprod, hcon]
    exact h.window.write (by omega) hroom hdesc
  case hp => exact ⟨hhead.symm, hmade ▸ htaken ▸ hroom⟩
  case hc => exact h.consumer.of_producer hcons htail hcon (hprod ▸ List.prefix_rfl)
  case hu =>
    simp only [htrace]
    refine atEvery_concat.mpr ⟨h.untouched, ?_⟩
    rcases he with rfl | rfl <;> exact hfree

theorem Safe.publish (h : Safe start s) {head : Word} {stage : Nat} (hp : s.producer = .filling head stage) :
    Safe start (publish s head) := by
  have hok := h.producer
  rw [ProducerOk, hp] at hok
  obtain ⟨rfl, hroom⟩ := hok
  have hprod : producedOf (Ipc.publish s s.ring.head).trace =
      producedOf s.trace ++ [s.ring.descriptors (ringSlot s.ring.head)] := by simp [Ipc.publish]
  have hcon : consumedOf (Ipc.publish s s.ring.head).trace = consumedOf s.trace := by simp [Ipc.publish]
  apply Safe.of_window
  case hw =>
    rw [hprod, hcon]
    exact h.window.produce hroom
  case hp => trivial
  case hc => exact h.consumer.of_producer rfl rfl hcon (hprod ▸ List.prefix_append _ _)
  case hu => exact h.untouched.append (by simp [SlotFree])

private theorem ReadSoFar.next {d copy : IpcDescriptor} {stage : Nat} (h : ReadSoFar d copy stage) (h5 : stage < 5) :
    ReadSoFar d (readField d copy stage) (stage + 1) := by
  obtain ⟨h1, h2, h3, h4, -⟩ := h
  match stage with
  | 0 | 1 | 2 | 3 | 4 => simp_all [ReadSoFar, readField]

private theorem ReadSoFar.done {d copy : IpcDescriptor} {stage : Nat} (h : ReadSoFar d copy stage) (h5 : 5 ≤ stage) :
    copy = d := by
  obtain ⟨h1, h2, h3, h4, hlast⟩ := h
  cases copy
  cases d
  rw [IpcDescriptor.mk.injEq]
  exact ⟨h1 (by omega), h2 (by omega), h3 (by omega), h4 (by omega), hlast h5⟩

/-- The message under the consumer's hands is the oldest one in the ring. -/
theorem Safe.oldest (h : Safe start s) (hlt : s.taken < s.made) :
    (producedOf s.trace)[s.taken]? = some (s.ring.descriptors (ringSlot s.ring.tail)) :=
  h.window.oldest hlt

/-- `g_rx_ring.tail.store(tail + 1)`, after the whole descriptor was read. -/
theorem Safe.release (h : Safe start s) {head tail : Word} {stage : Nat} {copy : IpcDescriptor}
    (hc : s.consumer = .reading head tail stage copy) (h5 : 5 ≤ stage) :
    Safe start { s with
      ring.tail := tail + 1
      consumer := .looping head (tail + 1)
      trace := s.trace ++ [.consumed copy] } := by
  have hok := h.consumer
  rw [ConsumerOk, hc] at hok
  obtain ⟨rfl, ⟨p, hp, hpm, hhead⟩, hread⟩ := hok
  have hleft : s.taken < s.made := lt_of_lt_of_le hp hpm
  obtain rfl := (hread _ (h.oldest hleft)).done h5
  set u : State := { s with
    ring.tail := s.ring.tail + 1
    consumer := .looping head (s.ring.tail + 1)
    trace := s.trace ++ [.consumed (s.ring.descriptors (ringSlot s.ring.tail))] }
  have hprod : producedOf u.trace = producedOf s.trace := by simp [u]
  have hcon : consumedOf u.trace = consumedOf s.trace ++ [s.ring.descriptors (ringSlot s.ring.tail)] := by simp [u]
  have hmade : u.made = s.made := congrArg List.length hprod
  have htaken : u.taken = s.taken + 1 := by
    rw [State.taken, hcon, List.length_append]
    rfl
  apply Safe.of_window
  case hw =>
    rw [hprod, hcon]
    exact h.window.consume hleft
  case hp => exact h.producer.of_consumer rfl rfl hprod (by omega)
  case hc => exact ⟨rfl, p, by omega, by omega, hhead⟩
  case hu => exact h.untouched.append (by simp [SlotFree])

theorem Safe.producerStep (h : Safe start s) (timestamp : Word) : Safe start (producerStep pool s timestamp) := by
  have hkeep (p : Producer) (hp : ProducerOk start { s with producer := p }) : Safe start { s with producer := p } :=
    h.local_step hp h.consumer
  have hok := h.producer
  unfold Ipc.producerStep
  cases hp : s.producer with
  | idle => exact hkeep _ rfl
  | loadedHead head =>
    rw [ProducerOk, hp] at hok
    exact hkeep _ ⟨hok, s.taken, le_rfl, h.bounded, h.tail⟩
  | loadedTail head tail =>
    rw [ProducerOk, hp] at hok
    obtain ⟨rfl, c, hc, hmc, rfl⟩ := hok
    simp only
    split
    · rename_i hlt
      exact hkeep _ ⟨rfl, h.window.room_of_lt (by omega) hc hmc hlt⟩
    · exact hkeep _ trivial
  | filling head stage =>
    simp only
    split
    · exact h.fill timestamp hp
    · exact h.publish hp

theorem Safe.consumerStep (h : Safe start s) : Safe start (consumerStep s) := by
  have hkeep (c : Consumer) (hc : ConsumerOk start { s with consumer := c }) : Safe start { s with consumer := c } :=
    h.local_step h.producer hc
  have hok := h.consumer
  unfold Ipc.consumerStep
  cases hc : s.consumer with
  | idle => exact hkeep _ ⟨s.made, h.ordered, le_rfl, h.head⟩
  | loadedHead head =>
    rw [ConsumerOk, hc] at hok
    exact hkeep _ ⟨rfl, hok⟩
  | looping head tail =>
    rw [ConsumerOk, hc] at hok
    obtain ⟨rfl, p, hp, hpm, rfl⟩ := hok
    simp only
    split
    · rename_i hne
      refine hkeep _ ⟨rfl, ⟨p, lt_of_le_of_ne hp ?_, hpm, rfl⟩, fun d _ => by simp [ReadSoFar]⟩
      intro he
      exact hne (h.tail.trans (congrArg (index start) he))
    · exact hkeep _ trivial
  | reading head tail stage copy =>
    simp only
    split
    · rename_i h5
      rw [ConsumerOk, hc] at hok
      obtain ⟨rfl, ⟨p, hp, hpm, hhead⟩, hread⟩ := hok
      refine hkeep _ ⟨rfl, ⟨p, hp, hpm, hhead⟩, fun d hd => ?_⟩
      have hold := h.oldest (lt_of_lt_of_le hp hpm)
      obtain rfl := Option.some.inj (hold.symm.trans hd)
      exact (hread _ hd).next h5
    · exact h.release hc (by omega)

theorem run_safe (pool start : Word) (descriptors : Word → IpcDescriptor) (payloads : Word → Nat → Byte)
    (seq : Word) (acts : List Action) :
    Safe start (run (step pool) (init start descriptors payloads seq) acts) := by
  refine run_invariant (fun s a h => ?_) (safe_init start descriptors payloads seq) acts
  cases a with
  | producer timestamp => exact h.producerStep timestamp
  | consumer => exact h.consumerStep

/-- From any equal indices and any old content, over every interleaving: at
most 128 messages are in the ring, they are exactly those produced and not yet
consumed, consumption follows production message for message, and no store
goes to a slot that holds one. -/
theorem ring_safe (pool start : Word) (descriptors : Word → IpcDescriptor) (payloads : Word → Nat → Byte)
    (seq : Word) (acts : List Action) :
    let s := run (step pool) (init start descriptors payloads seq) acts
    (s.ring.head - s.ring.tail).toNat ≤ 128 ∧
      (producedOf s.trace).length = (consumedOf s.trace).length + (s.ring.head - s.ring.tail).toNat ∧
      consumedOf s.trace <+: producedOf s.trace ∧ AtEvery (SlotFree start) s.trace := by
  intro s
  have h : Safe start s := run_safe pool start descriptors payloads seq acts
  have hb := h.bounded
  have ho := h.ordered
  have hsub : (s.ring.head - s.ring.tail).toNat = s.made - s.taken := h.window.sub_toNat (by omega)
  refine ⟨by omega, ?_, h.delivered, h.untouched⟩
  rw [hsub]
  exact (Nat.add_sub_cancel' ho).symm

end IoProcessor.Ipc
