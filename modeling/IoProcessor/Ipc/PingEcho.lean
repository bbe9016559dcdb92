import IoProcessor.Ipc.PingResponder
import IoProcessor.Library.SpscRing

/-! What the ping responder owes: an echo for every descriptor that it
releases. It releases one without an echo when the transmit ring is full. -/
namespace IoProcessor.Ipc.Ping
open Library History FreeRunning SpscRing

/-- The fields of a descriptor that an echo repeats. -/
abbrev Fields := Word × BitVec 16 × BitVec 16

def fields (d : IpcDescriptor) : Fields := (d.length, d.msgType, d.flags)

/-- The fields of the echo. -/
def image (d : IpcDescriptor) : Fields := (d.length, d.msgType, d.flags ||| 0x8000)

/-- The descriptor that is echoed and not yet released. -/
def State.inHand (s : State) : List IpcDescriptor :=
  match s.responder with
  | .published _ rxTail | .releasing _ rxTail => [s.rx.descriptors (ringSlot rxTail)]
  | _ => []

/-- The echoes on the transmit ring are those of the descriptors released, and
of the one in hand. -/
def Answers (s : State) : Prop :=
  (echoedOf s.trace).map fields = (releasedOf s.trace ++ s.inHand).map image

/-- The test of the transmit ring, where it comes next, finds room in it. -/
def Responder.FindsRoom : Responder → Prop
  | .loadedTxTail _ _ txHead txTail => txHead - txTail < ringSize
  | _ => True

instance : (r : Responder) → Decidable r.FindsRoom
  | .loadedTxTail _ _ txHead txTail => inferInstanceAs (Decidable (txHead - txTail < ringSize))
  | .polling | .loadedRxHead _ | .looping _ _ | .loadedTxHead _ _ _ | .echoing _ _ _ | .copying _ _ _ _ _ _
  | .filling _ _ _ _ | .published _ _ | .releasing _ _ | .reporting => .isTrue trivial

def FindsRoom (s : State) : Action → Prop
  | .respond _ => s.responder.FindsRoom
  | _ => True

instance (s : State) : (a : Action) → Decidable (FindsRoom s a)
  | .respond _ => inferInstanceAs (Decidable s.responder.FindsRoom)
  | .fillPing _ | .publishPing | .takeEcho | .storeByte _ _ => .isTrue trivial

section
variable (rxStart txStart : Word) (s : State)

abbrev RxWindow : Prop :=
  Window 7 rxStart s.rx.head s.rx.tail s.rx.descriptors (pingedOf s.trace) (releasedOf s.trace)

abbrev TxWindow : Prop :=
  Window 7 txStart s.tx.head s.tx.tail s.tx.descriptors (echoedOf s.trace) (answeredOf s.trace)

/-- A copy of the receive head, which may be old by now, with at least n pings
before it that are not released. -/
def HeadCopy (n : Nat) (rxHead : Word) : Prop :=
  ∃ p, (releasedOf s.trace).length + n ≤ p ∧ p ≤ (pingedOf s.trace).length ∧ rxHead = index rxStart p

/-- The responder works on the oldest ping. -/
def Taking (rxHead rxTail : Word) : Prop := rxTail = s.rx.tail ∧ HeadCopy rxStart s 1 rxHead

/-- It has a slot for the echo. -/
def Room (txHead : Word) : Prop :=
  txHead = s.tx.head ∧ (echoedOf s.trace).length < (answeredOf s.trace).length + 128

/-- The fields stored so far. -/
def FilledSoFar (inDesc outDesc : IpcDescriptor) (stage : Nat) : Prop :=
  (2 ≤ stage → outDesc.length = inDesc.length) ∧ (3 ≤ stage → outDesc.msgType = inDesc.msgType) ∧
    (4 ≤ stage → outDesc.flags = inDesc.flags ||| 0x8000)

/-- What the responder may rely on at each point. -/
def ResponderOk : Prop :=
  match s.responder with
  | .polling | .reporting => True
  | .loadedRxHead rxHead => HeadCopy rxStart s 0 rxHead
  | .looping rxHead rxTail => rxTail = s.rx.tail ∧ HeadCopy rxStart s 0 rxHead
  | .loadedTxHead rxHead rxTail txHead => Taking rxStart s rxHead rxTail ∧ txHead = s.tx.head
  | .loadedTxTail rxHead rxTail txHead txTail => Taking rxStart s rxHead rxTail ∧ txHead = s.tx.head ∧
      ∃ c ≤ (answeredOf s.trace).length, (echoedOf s.trace).length ≤ c + 128 ∧ txTail = index txStart c
  | .echoing rxHead rxTail txHead | .copying rxHead rxTail txHead _ _ _ =>
      Taking rxStart s rxHead rxTail ∧ Room s txHead
  | .filling rxHead rxTail txHead stage => Taking rxStart s rxHead rxTail ∧ Room s txHead ∧
      FilledSoFar (s.rx.descriptors (ringSlot rxTail)) (s.tx.descriptors (ringSlot txHead)) stage
  | .published rxHead rxTail | .releasing rxHead rxTail => Taking rxStart s rxHead rxTail

structure Sound : Prop where
  rx : RxWindow rxStart s
  tx : TxWindow txStart s
  responder : ResponderOk rxStart txStart s
  answers : Answers s

end

variable {rxStart txStart : Word} {s t : State}

theorem sound_init (rxStart txStart : Word) (rxOld txOld : Word → IpcDescriptor) (ram : Memory) :
    Sound rxStart txStart (init rxStart txStart rxOld txOld ram) where
  rx := window_init rxStart rxOld
  tx := window_init txStart txOld
  responder := trivial
  answers := rfl

theorem Taking.some_left {rxHead rxTail : Word} (h : Taking rxStart s rxHead rxTail) :
    (releasedOf s.trace).length < (pingedOf s.trace).length := by
  obtain ⟨-, p, hp, hm, -⟩ := h
  omega

/-- What Linux may change under the responder's hands. -/
structure Unmoved (s t : State) : Prop where
  responder : t.responder = s.responder
  rxTail : t.rx.tail = s.rx.tail
  txHead : t.tx.head = s.tx.head
  outDesc : t.tx.descriptors = s.tx.descriptors
  released : releasedOf t.trace = releasedOf s.trace
  echoed : echoedOf t.trace = echoedOf s.trace
  pinged : (pingedOf s.trace).length ≤ (pingedOf t.trace).length
  answered : (answeredOf s.trace).length ≤ (answeredOf t.trace).length
  inDesc : (releasedOf s.trace).length < (pingedOf s.trace).length →
    t.rx.descriptors (ringSlot s.rx.tail) = s.rx.descriptors (ringSlot s.rx.tail)

theorem HeadCopy.unmoved {n : Nat} {rxHead : Word} (hu : Unmoved s t) (h : HeadCopy rxStart s n rxHead) :
    HeadCopy rxStart t n rxHead := by
  obtain ⟨p, hp, hm, he⟩ := h
  exact ⟨p, by rwa [hu.released], hm.trans hu.pinged, he⟩

theorem Taking.unmoved {rxHead rxTail : Word} (hu : Unmoved s t) (h : Taking rxStart s rxHead rxTail) :
    Taking rxStart t rxHead rxTail :=
  ⟨h.1.trans hu.rxTail.symm, h.2.unmoved hu⟩

theorem Room.unmoved {txHead : Word} (hu : Unmoved s t) (h : Room s txHead) : Room t txHead := by
  refine ⟨h.1.trans hu.txHead.symm, ?_⟩
  have := h.2
  have := hu.answered
  rw [hu.echoed]
  omega

theorem ResponderOk.unmoved (hu : Unmoved s t) (h : ResponderOk rxStart txStart s) : ResponderOk rxStart txStart t := by
  unfold ResponderOk at h ⊢
  rw [hu.responder]
  cases hr : s.responder with
  | polling | reporting => trivial
  | loadedRxHead rxHead =>
    rw [hr] at h
    exact HeadCopy.unmoved hu h
  | looping rxHead rxTail =>
    rw [hr] at h
    exact ⟨h.1.trans hu.rxTail.symm, h.2.unmoved hu⟩
  | loadedTxHead rxHead rxTail txHead =>
    rw [hr] at h
    exact ⟨h.1.unmoved hu, h.2.trans hu.txHead.symm⟩
  | loadedTxTail rxHead rxTail txHead txTail =>
    rw [hr] at h
    obtain ⟨ht, hx, c, hc, he, hy⟩ := h
    exact ⟨ht.unmoved hu, hx.trans hu.txHead.symm, c, hc.trans hu.answered, by rwa [hu.echoed], hy⟩
  | echoing rxHead rxTail txHead | copying rxHead rxTail txHead src copyLen i =>
    rw [hr] at h
    exact ⟨h.1.unmoved hu, h.2.unmoved hu⟩
  | filling rxHead rxTail txHead stage =>
    rw [hr] at h
    obtain ⟨ht, hroom, hf⟩ := h
    refine ⟨ht.unmoved hu, hroom.unmoved hu, ?_⟩
    rw [ht.1] at hf ⊢
    rwa [hu.outDesc, hu.inDesc ht.some_left]
  | published rxHead rxTail | releasing rxHead rxTail =>
    rw [hr] at h
    exact Taking.unmoved hu h

theorem Answers.unmoved (hu : Unmoved s t) (hr : ResponderOk rxStart txStart s) (h : Answers s) : Answers t := by
  have hhand : t.inHand = s.inHand := by
    unfold State.inHand
    rw [hu.responder]
    unfold ResponderOk at hr
    cases hs : s.responder with
    | published rxHead rxTail | releasing rxHead rxTail =>
      rw [hs] at hr
      have ht : Taking rxStart s rxHead rxTail := hr
      simp only [ht.1, hu.inDesc ht.some_left]
    | _ => rfl
  rw [Answers, hu.echoed, hu.released, hhand]
  exact h

/-- A step that changes nothing the rings or the histories show. -/
theorem Sound.local_step (h : Sound rxStart txStart s) (hrx : t.rx = s.rx) (htx : t.tx = s.tx)
    (hp : pingedOf t.trace = pingedOf s.trace) (he : echoedOf t.trace = echoedOf s.trace)
    (hrel : releasedOf t.trace = releasedOf s.trace) (ha : answeredOf t.trace = answeredOf s.trace)
    (hhand : t.inHand = s.inHand) (hr : ResponderOk rxStart txStart t) : Sound rxStart txStart t where
  rx := by
    rw [RxWindow, hrx, hp, hrel]
    exact h.rx
  tx := by
    rw [TxWindow, htx, he, ha]
    exact h.tx
  responder := hr
  answers := by
    rw [Answers, he, hrel, hhand]
    exact h.answers

theorem lt_ringSize {i j : Word} : i - j < ringSize ↔ (i - j).toNat < 2^7 := Iff.rfl

/-- Linux at its ends of the rings. -/
theorem Sound.linux (h : Sound rxStart txStart s) {pool : Word} {a : Action} (ha : ∀ timestamp, a ≠ .respond timestamp) :
    Sound rxStart txStart (step pool s a) := by
  have keep {u : State} (hu : Unmoved s u) (hrx : RxWindow rxStart u) (htx : TxWindow txStart u) :
      Sound rxStart txStart u := ⟨hrx, htx, h.responder.unmoved hu, h.answers.unmoved hu h.responder⟩
  cases a with
  | respond timestamp => exact absurd rfl (ha timestamp)
  | fillPing d =>
    simp only [step]
    split
    · rename_i hlt
      have hroom := h.rx.room_of_lt (by omega) le_rfl h.rx.bounded (h.rx.tail ▸ lt_ringSize.mp hlt)
      have hwrite := h.rx.write (by omega) hroom fun x hx => Function.update_of_ne hx d s.rx.descriptors
      refine keep ⟨rfl, rfl, rfl, rfl, rfl, rfl, le_rfl, le_rfl, fun hleft => ?_⟩ hwrite h.tx
      refine Function.update_of_ne ?_ _ _
      rw [ringSlot_eq, ringSlot_eq, h.rx.tail]
      exact h.rx.slot_free (by omega) hroom le_rfl hleft
    · exact h
  | publishPing =>
    simp only [step]
    split
    · rename_i hlt
      have hroom := h.rx.room_of_lt (by omega) le_rfl h.rx.bounded (h.rx.tail ▸ lt_ringSize.mp hlt)
      refine keep ⟨rfl, rfl, rfl, rfl, by simp, by simp, by simp, by simp, fun _ => rfl⟩ ?_ ?_
      · simpa [RxWindow, ringSlot_eq] using h.rx.produce hroom
      · simpa [TxWindow] using h.tx
    · exact h
  | takeEcho =>
    simp only [step]
    split
    · rename_i hne
      have hleft := (h.tx.tail_ne_head (by omega)).mp hne
      refine keep ⟨rfl, rfl, rfl, rfl, by simp, by simp, by simp, by simp, fun _ => rfl⟩ ?_ ?_
      · simpa [RxWindow] using h.rx
      · simpa [TxWindow, ringSlot_eq] using h.tx.consume hleft
    · exact h
  | storeByte a v => exact keep ⟨rfl, rfl, rfl, rfl, rfl, rfl, le_rfl, le_rfl, fun _ => rfl⟩ h.rx h.tx

private theorem FilledSoFar.next {inDesc outDesc : IpcDescriptor} {stage : Nat} (h : FilledSoFar inDesc outDesc stage)
    (h5 : stage < 5) (pool timestamp slot : Word) :
    FilledSoFar inDesc (fillEcho pool timestamp slot inDesc outDesc stage) (stage + 1) := by
  obtain ⟨h2, h3, h4⟩ := h
  match stage with
  | 0 | 1 | 2 | 3 | 4 => simp_all [FilledSoFar, fillEcho]

private theorem FilledSoFar.done {inDesc outDesc : IpcDescriptor} {stage : Nat} (h : FilledSoFar inDesc outDesc stage)
    (h5 : 5 ≤ stage) : fields outDesc = image inDesc := by
  obtain ⟨h2, h3, h4⟩ := h
  rw [fields, image, h2 (by omega), h3 (by omega), h4 (by omega)]

/-- A store to the descriptor of the echo. -/
theorem Sound.fill (h : Sound rxStart txStart s) {pool timestamp rxHead rxTail txHead : Word} {stage : Nat}
    (hr : s.responder = .filling rxHead rxTail txHead stage) (h5 : stage < 5) :
    Sound rxStart txStart (respond pool timestamp s) := by
  have hok := h.responder
  rw [ResponderOk, hr] at hok
  obtain ⟨ht, hroom, hf⟩ := hok
  have hhand : s.inHand = [] := by simp [State.inHand, hr]
  have hans := h.answers
  rw [Answers, hhand] at hans
  simp only [respond, hr, if_pos h5]
  constructor
  case rx => exact h.rx
  case tx =>
    rw [hroom.1]
    exact h.tx.write (by omega) hroom.2 fun x hx => Function.update_of_ne hx _ _
  case responder =>
    refine ⟨ht, hroom, ?_⟩
    simp only [Function.update_self]
    exact hf.next h5 pool timestamp _
  case answers => exact hans

/-- The store of the transmit head. -/
theorem Sound.publish (h : Sound rxStart txStart s) {pool timestamp rxHead rxTail txHead : Word} {stage : Nat}
    (hr : s.responder = .filling rxHead rxTail txHead stage) (h5 : ¬ stage < 5) :
    Sound rxStart txStart (respond pool timestamp s) := by
  have hok := h.responder
  rw [ResponderOk, hr] at hok
  obtain ⟨⟨htail, hcopy⟩, hroom, hf⟩ := hok
  have hhand : s.inHand = [] := by simp [State.inHand, hr]
  have hans := h.answers
  rw [Answers, hhand] at hans
  simp only [respond, hr, if_neg h5]
  constructor
  case rx => simpa [RxWindow] using h.rx
  case tx =>
    rw [hroom.1]
    simpa [TxWindow, ringSlot_eq] using h.tx.produce hroom.2
  case responder =>
    refine ⟨htail, ?_⟩
    simpa [HeadCopy] using hcopy
  case answers =>
    have hdone := hf.done (Nat.le_of_not_lt h5)
    simpa [Answers, State.inHand, hdone] using hans

/-- The store of the receive tail: the descriptor in hand is released. -/
theorem Sound.release (h : Sound rxStart txStart s) {pool timestamp rxHead rxTail : Word}
    (hr : s.responder = .releasing rxHead rxTail) : Sound rxStart txStart (respond pool timestamp s) := by
  have hok := h.responder
  rw [ResponderOk, hr] at hok
  have hleft := Taking.some_left hok
  obtain ⟨htail, p, hp, hm, hhead⟩ := hok
  have hhand : s.inHand = [s.rx.descriptors (ringSlot rxTail)] := by simp [State.inHand, hr]
  have hans := h.answers
  rw [Answers, hhand] at hans
  simp only [respond, hr]
  constructor
  case rx =>
    rw [htail]
    simpa [RxWindow, ringSlot_eq] using h.rx.consume hleft
  case tx => simpa [TxWindow] using h.tx
  case responder =>
    refine ⟨rfl, p, ?_, ?_, hhead⟩
    · simpa using hp
    · simpa using hm
  case answers => simpa [Answers, State.inHand] using hans

/-- An access that only moves the responder on. -/
theorem Sound.move (h : Sound rxStart txStart s) {r : Responder} (hs : s.inHand = [])
    (ht : State.inHand { s with responder := r } = []) (hr : ResponderOk rxStart txStart { s with responder := r }) :
    Sound rxStart txStart { s with responder := r } :=
  h.local_step rfl rfl rfl rfl rfl rfl (ht.trans hs.symm) hr

/-- The test of the receive ring: a copy of its head that is not the tail has a
ping before it. -/
theorem Sound.loop (h : Sound rxStart txStart s) {pool timestamp rxHead rxTail : Word}
    (hr : s.responder = .looping rxHead rxTail) : Sound rxStart txStart (respond pool timestamp s) := by
  have hok := h.responder
  rw [ResponderOk, hr] at hok
  obtain ⟨rfl, p, hp, hm, rfl⟩ := hok
  have hhand : s.inHand = [] := by simp [State.inHand, hr]
  simp only [respond, hr]
  split
  · rename_i hne
    refine h.move hhand rfl ⟨⟨rfl, p, ?_, hm, rfl⟩, rfl⟩
    refine lt_of_le_of_ne hp fun he => hne ?_
    rw [h.rx.tail, ← he]
    rfl
  · exact h.move hhand rfl trivial

/-- The test of the transmit ring, with room in it. -/
theorem Sound.test (h : Sound rxStart txStart s) {pool timestamp rxHead rxTail txHead txTail : Word}
    (hr : s.responder = .loadedTxTail rxHead rxTail txHead txTail) (hlt : txHead - txTail < ringSize) :
    Sound rxStart txStart (respond pool timestamp s) := by
  have hok := h.responder
  rw [ResponderOk, hr] at hok
  obtain ⟨ht, rfl, c, hc, he, rfl⟩ := hok
  have hroom := h.tx.room_of_lt (by omega) hc he (lt_ringSize.mp hlt)
  simp only [respond, hr, if_pos hlt]
  exact h.move (by simp [State.inHand, hr]) rfl ⟨ht, rfl, hroom⟩

theorem Sound.respond (h : Sound rxStart txStart s) {pool timestamp : Word} (ha : FindsRoom s (.respond timestamp)) :
    Sound rxStart txStart (respond pool timestamp s) := by
  have hok := h.responder
  cases hr : s.responder with
  | polling =>
    simp only [Ping.respond, hr]
    exact h.move (by simp [State.inHand, hr]) rfl ⟨_, h.rx.ordered, le_rfl, h.rx.head⟩
  | loadedRxHead rxHead =>
    rw [ResponderOk, hr] at hok
    simp only [Ping.respond, hr]
    exact h.move (by simp [State.inHand, hr]) rfl ⟨rfl, hok⟩
  | looping rxHead rxTail => exact h.loop hr
  | loadedTxHead rxHead rxTail txHead =>
    rw [ResponderOk, hr] at hok
    simp only [Ping.respond, hr]
    exact h.move (by simp [State.inHand, hr]) rfl ⟨hok.1, hok.2, _, le_rfl, h.tx.bounded, h.tx.tail⟩
  | loadedTxTail rxHead rxTail txHead txTail =>
    rw [FindsRoom, hr] at ha
    exact h.test hr ha
  | echoing rxHead rxTail txHead =>
    rw [ResponderOk, hr] at hok
    have hhand : s.inHand = [] := by simp [State.inHand, hr]
    simp only [Ping.respond, hr]
    split
    · exact h.move hhand rfl hok
    · exact h.move hhand rfl ⟨hok.1, hok.2, by simp [FilledSoFar]⟩
  | copying rxHead rxTail txHead src copyLen i =>
    rw [ResponderOk, hr] at hok
    have hhand : s.inHand = [] := by simp [State.inHand, hr]
    simp only [Ping.respond, hr]
    split
    · exact h.local_step rfl rfl rfl rfl rfl rfl hhand.symm hok
    · exact h.move hhand rfl ⟨hok.1, hok.2, by simp [FilledSoFar]⟩
  | filling rxHead rxTail txHead stage =>
    by_cases h5 : stage < 5
    · exact h.fill hr h5
    · exact h.publish hr h5
  | published rxHead rxTail =>
    rw [ResponderOk, hr] at hok
    simp only [Ping.respond, hr]
    refine h.local_step rfl rfl (by simp) (by simp) (by simp) (by simp) (by simp [State.inHand, hr]) ?_
    simpa [ResponderOk, Taking, HeadCopy] using hok
  | releasing rxHead rxTail => exact h.release hr
  | reporting =>
    have hhand : s.inHand = [] := by simp [State.inHand, hr]
    simp only [Ping.respond, hr]
    split
    · exact h.local_step rfl rfl (by simp) (by simp) (by simp) (by simp) hhand.symm trivial
    · exact h.move hhand rfl trivial

theorem step_sound {pool : Word} {a : Action} (h : Sound rxStart txStart s) (ha : FindsRoom s a) :
    Sound rxStart txStart (step pool s a) := by
  cases a with
  | respond timestamp => exact h.respond ha
  | _ => exact h.linux (by simp)

/-- As long as the responder finds room on the transmit ring whenever it tests
it, the echoes published are those of the pings released and of the one in
hand, in order, and these are the first pings that Linux published. -/
theorem every_ping_echoed (pool rxStart txStart : Word) (rxOld txOld : Word → IpcDescriptor) (ram : Memory)
    (acts : List Action) (h : Along (step pool) FindsRoom (init rxStart txStart rxOld txOld ram) acts) :
    let s := run (step pool) (init rxStart txStart rxOld txOld ram) acts
    Answers s ∧ releasedOf s.trace ++ s.inHand <+: pingedOf s.trace := by
  intro s
  have hs : Sound rxStart txStart s :=
    run_invariant_along (fun _ _ h ha => step_sound h ha) (sound_init rxStart txStart rxOld txOld ram) h
  refine ⟨hs.answers, ?_⟩
  have hok := hs.responder
  unfold ResponderOk at hok
  unfold State.inHand
  cases hr : s.responder with
  | published rxHead rxTail | releasing rxHead rxTail =>
    rw [hr] at hok
    have ht : Taking rxStart s rxHead rxTail := hok
    rw [ht.1]
    exact (hs.rx.consume ht.some_left).delivered
  | _ => simpa using hs.rx.delivered

/-- Linux publishes one ping and the responder polls until it sleeps again. -/
private def round : List Action := [.fillPing default, .publishPing] ++ List.replicate 16 (.respond 0)

private def cold : State := init 0 0 (fun _ => default) (fun _ => default) (fun _ => 0)

theorem every_ping_echoed_in_a_round :
    let s := run (step 0x40000000) cold round
    Along (step 0x40000000) FindsRoom cold round ∧ (Answers s ∧ releasedOf s.trace ++ s.inHand <+: pingedOf s.trace) ∧
      (releasedOf s.trace).length = 1 :=
  ⟨by decide, every_ping_echoed _ _ _ _ _ _ _ (by decide), by decide⟩

private theorem round_echoes (pool : Word) {s : State} (hr : s.responder = .polling) (hrx : s.rx.tail = s.rx.head)
    (hroom : s.tx.head - s.tx.tail < ringSize) :
    let t := run (step pool) s round
    t.responder = .polling ∧ t.rx.tail = t.rx.head ∧ t.tx.head = s.tx.head + 1 ∧ t.tx.tail = s.tx.tail ∧
      (echoedOf t.trace).length = (echoedOf s.trace).length + 1 ∧
      (releasedOf t.trace).length = (releasedOf s.trace).length + 1 := by
  have hz : 0#32 < ringSize := by decide
  have hne : s.rx.head ≠ s.rx.head + 1#32 := by simp
  have hd : (default : IpcDescriptor).dramPayloadAddr = 0 := rfl
  simp only [round, List.replicate, List.cons_append, List.nil_append, run_cons, run_nil, step, respond, hr, hrx,
    hroom, BitVec.sub_self, BitVec.ofNat_eq_ofNat, hz, if_true, hne, ne_eq, not_false_eq_true, not_true_eq_false,
    if_false, Function.update_self, hd, false_and, Nat.reduceLT, Nat.reduceAdd]
  split <;> simp

private def rounds (n : Nat) : List Action := (List.replicate n round).flatten

/-- Linux takes none of the echoes. -/
private theorem rounds_echo (pool : Word) {n : Nat} (hn : n ≤ 128) :
    let t := run (step pool) cold (rounds n)
    t.responder = .polling ∧ t.rx.tail = t.rx.head ∧ t.tx.head = BitVec.ofNat 32 n ∧ t.tx.tail = 0 ∧
      (echoedOf t.trace).length = n ∧ (releasedOf t.trace).length = n := by
  induction n with
  | zero => exact ⟨rfl, rfl, rfl, rfl, rfl, rfl⟩
  | succ n ih =>
    obtain ⟨hr, hrx, hhead, htail, hecho, hrel⟩ := ih (by omega)
    have hroom : (run (step pool) cold (rounds n)).tx.head - (run (step pool) cold (rounds n)).tx.tail < ringSize := by
      rw [hhead, htail, BitVec.lt_def]
      simp [ringSize]
      omega
    have hsplit : rounds (n+1) = rounds n ++ round := by simp [rounds, List.replicate_succ']
    obtain ⟨hr, hrx, hhead', htail', hecho', hrel'⟩ := round_echoes pool hr hrx hroom
    rw [hsplit, run_append]
    refine ⟨hr, hrx, hhead'.trans ?_, htail'.trans htail, hecho'.trans (by rw [hecho]), hrel'.trans (by rw [hrel])⟩
    rw [hhead, BitVec.ofNat_add]
    rfl

/-- One more ping, up to the store of the receive tail. -/
private def oneMore : List Action := [.fillPing default, .publishPing] ++ List.replicate 6 (.respond 0)

private theorem full_ring_releases (pool : Word) {s : State} (hr : s.responder = .polling)
    (hrx : s.rx.tail = s.rx.head) (hfull : ¬ s.tx.head - s.tx.tail < ringSize) :
    let t := run (step pool) s oneMore
    (echoedOf t.trace).length = (echoedOf s.trace).length ∧
      (releasedOf t.trace).length = (releasedOf s.trace).length + 1 := by
  have hz : 0#32 < ringSize := by decide
  have hne : s.rx.head ≠ s.rx.head + 1#32 := by simp
  simp only [oneMore, List.replicate, List.cons_append, List.nil_append, run_cons, run_nil, step, respond, hr, hrx,
    hfull, BitVec.sub_self, BitVec.ofNat_eq_ofNat, hz, if_true, hne, ne_eq, not_false_eq_true, if_false]
  simp

/-- 128 echoes are waiting for Linux when the next ping comes: it is released
and never answered. -/
theorem ping_released_without_echo :
    let s := run (step 0x40000000) cold (rounds 128 ++ oneMore)
    (echoedOf s.trace).length = 128 ∧ (releasedOf s.trace).length = 129 ∧ ¬ Answers s := by
  intro s
  obtain ⟨hr, hrx, hhead, htail, hecho, hrel⟩ := rounds_echo 0x40000000 (Nat.le_refl 128)
  have hfull : ¬ (run (step 0x40000000) cold (rounds 128)).tx.head -
      (run (step 0x40000000) cold (rounds 128)).tx.tail < ringSize := by
    rw [hhead, htail]
    decide
  obtain ⟨hecho', hrel'⟩ := full_ring_releases 0x40000000 hr hrx hfull
  have hs : s = run (step 0x40000000) (run (step 0x40000000) cold (rounds 128)) oneMore := run_append _ _ _ _
  rw [← hs, hecho] at hecho'
  rw [← hs, hrel] at hrel'
  refine ⟨hecho', hrel', fun h => ?_⟩
  have hlen := congrArg List.length h
  rw [List.length_map, List.length_map, List.length_append, hecho', hrel'] at hlen
  omega

end IoProcessor.Ipc.Ping
