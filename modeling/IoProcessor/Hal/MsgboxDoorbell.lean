import IoProcessor.Hal.Msgbox

/-! Doorbells between the register accesses of MsgboxDriver. The handler is cut
into its accesses here, and Linux may send before any of them. -/
namespace IoProcessor.Hal.Msgbox
open Library MemoryMap History

/-- What `handle_isr` knows between two of its accesses. -/
inductive Core where
  | outside
  | statusRead (status : Word)
  | messageRead (status msg : Word)
  | acknowledged (msg : Word)
  deriving DecidableEq, Repr

/-- The message that was read and not handed on yet. -/
def Core.inHand : Core → List Word
  | .outside | .statusRead _ => []
  | .messageRead _ msg | .acknowledged msg => [msg]

/-- The next access is the write of RD_IRQ_STATUS. -/
def Core.acknowledges : Core → Bool
  | .messageRead _ _ => true
  | .outside | .statusRead _ | .acknowledged _ => false

/-- The driver with what the outside knows of it: the messages that Linux sent
and those that were read, the coroutines whose await was accepted, and what each
one that was posted finds in its frame. -/
structure Fine where
  state : State Mailbox
  core : Core
  arrived : List Word
  taken : List Word
  awaited : List Coro
  found : List (Coro × Word)

namespace Fine

inductive Action where
  | message (m : Word)
  | waitForDoorbell (h : Coro) (message : Word)
  | isr
  | proceed
  deriving DecidableEq, Repr

/-- What the coroutine at the head of the queue finds in its frame. -/
def frame (s : Fine) (world : Mailbox) : List (Coro × Word) :=
  match s.state.pending.pop with
  | some (⟨some h, some address⟩, _) => [(h, world.ram.load32 address)]
  | _ => []

/-- The next access of the handler. -/
def proceed (s : Fine) : Fine :=
  match s.core with
  | .outside => s
  | .statusRead status =>
    let msg := mailbox.read s.state.world (reg riscvMsgboxBase msgQueue rxDirection rxQueue)
    { s with
      state.world := msg.2
      core := .messageRead status msg.1
      taken := s.taken ++ s.state.world.fifo.head?.toList }
  | .messageRead status msg =>
    { s with
      state.world := mailbox.write s.state.world (reg riscvMsgboxBase rdIrqStatus rxDirection 0) status
      core := .acknowledged msg }
  | .acknowledged msg =>
    let state := deliver mailbox s.state msg
    { s with state := state, core := .outside, found := s.found ++ s.frame state.world }

/-- A message sets the status bit of its queue. Coroutines run while no handler
does. -/
def step (s : Fine) : Action → Fine
  | .message m =>
    { s with
      state.world.fifo := s.state.world.fifo ++ [m]
      state.world.rdIrqStatus := s.state.world.rdIrqStatus ||| 1#32 <<< (rxQueue * 2).toNat
      arrived := s.arrived ++ [m] }
  | .waitForDoorbell h message =>
    if s.core = .outside then
      { s with state := awaitSuspend s.state h message, awaited := s.awaited ++ [h] }
    else s
  | .isr =>
    if s.core = .outside then
      let status := mailbox.read s.state.world (reg riscvMsgboxBase rdIrqStatus rxDirection 0)
      { s with state.world := status.2, core := if status.1 = 0 then .outside else .statusRead status.1 }
    else s
  | .proceed => s.proceed

def init (ram : Memory) : Fine where
  state := ⟨.init, Msgbox.init mailbox ⟨0, 0, [], [], ram⟩, []⟩
  core := .outside
  arrived := []
  taken := []
  awaited := []
  found := []

abbrev run (ram : Memory) (acts : List Action) : Fine := History.run step (init ram) acts

end Fine

theorem read_rdIrqStatus (m : Mailbox) :
    mailbox.read m (reg riscvMsgboxBase rdIrqStatus rxDirection 0) = (m.rdIrqStatus, m) := by
  simp only [mailbox, if_pos]

theorem read_msgQueue (m : Mailbox) :
    mailbox.read m (reg riscvMsgboxBase msgQueue rxDirection rxQueue) =
      (m.fifo.headD 0, { m with fifo := m.fifo.tail }) := by
  simp only [mailbox]
  rw [if_neg (by decide), if_pos trivial]

theorem write_rdIrqStatus (m : Mailbox) (v : Word) :
    mailbox.write m (reg riscvMsgboxBase rdIrqStatus rxDirection 0) v =
      { m with rdIrqStatus := m.rdIrqStatus &&& ~~~v } := by
  simp only [mailbox]
  rw [if_neg (by decide), if_pos trivial]

namespace Fine

/-- With no message between its accesses the handler is one step of the coarser
machine. -/
theorem run_isr {s : Fine} (hc : s.core = .outside) :
    (History.run step s (.isr :: List.replicate 3 .proceed)).state = handleIsr mailbox s.state := by
  unfold handleIsr
  by_cases h0 : s.state.world.rdIrqStatus = 0
  · simp only [List.replicate, History.run_cons, History.run_nil, step, proceed, hc, read_rdIrqStatus, h0, if_true]
  · simp only [List.replicate, History.run_cons, History.run_nil, step, proceed, hc, read_rdIrqStatus, h0, if_true,
      if_false]

/-- The coroutines that were posted, each with its message. -/
def posts (t : List Event) : List (Coro × Word) :=
  t.filterMap fun | .posted h msg => some (h, msg) | .suspended _ => none

/-- Messages are read in the order in which Linux sent them and handed on in
that order; the accepted waiters are those that were posted, once each, and
those that are queued; and who was posted finds the message that woke it. -/
structure Orderly (s : Fine) : Prop where
  read : s.arrived = s.taken ++ s.state.world.fifo
  handed : ((posts s.state.trace).map Prod.snd).Sublist s.taken
  waiters : s.awaited = (posts s.state.trace).map Prod.fst ++ s.state.pending.toList.filterMap DoorbellRequest.handle
  found : s.found = posts s.state.trace

/-- A waiter and a message for it, and no interrupt. -/
def Stranded (s : Fine) : Prop :=
  s.state.pending.toList ≠ [] ∧ s.state.world.fifo ≠ [] ∧ s.state.world.rdIrqStatus.getLsbD 0 = false

instance (s : Fine) : Decidable s.Stranded := inferInstanceAs (Decidable (_ ∧ _))

/-- An await finds room in the queue. -/
def Room (s : Fine) : Action → Prop
  | .waitForDoorbell _ _ => s.state.pending.toList.length < 8
  | .message _ | .isr | .proceed => True

/-- The status is not acknowledged while a message is unread. -/
def AllRead (s : Fine) : Action → Prop
  | .proceed => s.core.acknowledges = true → s.state.world.fifo = []
  | .message _ | .waitForDoorbell _ _ | .isr => True

instance (s : Fine) : (a : Action) → Decidable (Room s a)
  | .waitForDoorbell _ _ => inferInstanceAs (Decidable (s.state.pending.toList.length < 8))
  | .message _ | .isr | .proceed => .isTrue trivial

instance (s : Fine) : (a : Action) → Decidable (AllRead s a)
  | .proceed => inferInstanceAs (Decidable (_ → _))
  | .message _ | .waitForDoorbell _ _ | .isr => .isTrue trivial

/-- The order of messages and waiters, with what carries it through a handler:
a status bit that is set stands for a message in the FIFO, but for the time
between the read and the acknowledgement. -/
structure Inv (s : Fine) : Prop where
  read : s.arrived = s.taken ++ s.state.world.fifo
  handed : ((posts s.state.trace).map Prod.snd ++ s.core.inHand).Sublist s.taken
  queued : ∃ rest : List (Coro × Word), s.state.pending.toList = rest.map (fun w => ⟨some w.1, some w.2⟩) ∧
    s.awaited = (posts s.state.trace).map Prod.fst ++ rest.map Prod.fst
  found : s.found = posts s.state.trace
  status : s.state.world.rdIrqStatus = 0 ∨ s.state.world.rdIrqStatus = 1
  known : ∀ status, s.core = .statusRead status → status = 1 ∧ s.state.world.fifo ≠ []
  raised : s.core.acknowledges = false → s.state.world.rdIrqStatus = 1 → s.state.world.fifo ≠ []
  acknowledged : ∀ status msg, s.core = .messageRead status msg → status = 1

variable {s : Fine}

theorem Inv.orderly (h : Inv s) : Orderly s := by
  obtain ⟨rest, hq, ha⟩ := h.queued
  refine ⟨h.read, (List.sublist_append_left _ _).trans h.handed, ?_, h.found⟩
  rw [ha, hq, List.filterMap_map]
  congr 1
  exact (List.filterMap_eq_map (f := Prod.fst)).symm ▸ rfl

theorem Inv.init (ram : Memory) : Inv (init ram) where
  read := rfl
  handed := .slnil
  queued := ⟨[], rfl, rfl⟩
  found := rfl
  status := .inl rfl
  known := by simp [Fine.init]
  raised _ h := absurd h (by simp [Fine.init, Msgbox.init, mailbox])
  acknowledged := by simp [Fine.init]

theorem Inv.message (h : Inv s) (m : Word) : Inv (step s (.message m)) := by
  have hs : (step s (.message m)).state.world.rdIrqStatus = 1 := by
    rcases h.status with h0 | h0 <;> simp only [step, h0] <;> decide
  have hf : (step s (.message m)).state.world.fifo ≠ [] := by simp [step]
  exact
    { h with
      read := by simp only [step, h.read, List.append_assoc]
      status := .inr hs
      known := fun status hc => ⟨(h.known status hc).1, hf⟩
      raised := fun _ _ => hf }

theorem Inv.wait (h : Inv s) {c : Coro} {message : Word} (room : Room s (.waitForDoorbell c message)) :
    Inv (step s (.waitForDoorbell c message)) := by
  by_cases hc : s.core = .outside
  · simp only [step, if_pos hc]
    obtain ⟨rest, hq, ha⟩ := h.queued
    have hp : posts (s.state.trace ++ [.suspended c]) = posts s.state.trace := by simp [posts]
    rcases s.state.pending.push_cases ⟨some c, some message⟩ with ⟨-, hl⟩ | ⟨q, hpush, hlist, -⟩
    · exact absurd room (by simp [Room, hl])
    · refine { h with handed := ?_, queued := ?_, found := ?_ }
      · simp only [awaitSuspend, hp]
        exact h.handed
      · refine ⟨rest ++ [(c, message)], ?_, ?_⟩
        · simp [awaitSuspend, hpush, hlist, hq]
        · simp [awaitSuspend, hp, ha]
      · simp only [awaitSuspend, hp]
        exact h.found
  · simp only [step, if_neg hc]
    exact h

theorem Inv.isr (h : Inv s) : Inv (step s .isr) := by
  by_cases hc : s.core = .outside
  · simp only [step, if_pos hc, read_rdIrqStatus]
    have hh := h.handed
    have hr := h.raised
    simp only [hc, Core.inHand] at hh
    rcases h.status with h0 | h0
    · simp only [h0, if_true]
      exact { h with
        handed := hh
        known := by simp
        raised := fun _ h1 => absurd (h0.symm.trans h1) (by decide)
        acknowledged := by simp }
    · have hf := hr (by rw [hc, Core.acknowledges]) h0
      simp only [h0]
      exact { h with
        handed := hh
        known := fun status he => ⟨by simpa using he.symm, hf⟩
        raised := fun _ _ => hf
        acknowledged := by simp }
  · simp only [step, if_neg hc]
    exact h

theorem Inv.statusRead (h : Inv s) {status : Word} (hc : s.core = .statusRead status) : Inv s.proceed := by
  obtain ⟨hstatus, hfifo⟩ := h.known status hc
  obtain ⟨m, rest, hf⟩ := List.exists_cons_of_ne_nil hfifo
  have hh := h.handed
  simp only [hc, Core.inHand, List.append_nil] at hh
  simp only [proceed, hc, read_msgQueue]
  refine { h with read := ?_, handed := ?_, known := by simp, raised := by simp [Core.acknowledges], acknowledged := ?_ }
  · simp [h.read, hf]
  · simp only [hf, List.headD_cons, List.head?_cons, Option.toList_some, Core.inHand]
    exact hh.append (List.Sublist.refl _)
  · rintro _ _ ⟨rfl, -⟩
    exact hstatus

theorem Inv.messageRead (h : Inv s) {status msg : Word} (hc : s.core = .messageRead status msg) : Inv s.proceed := by
  have hstatus := h.acknowledged status msg hc
  have hh := h.handed
  simp only [hc, Core.inHand] at hh
  have hclear : s.state.world.rdIrqStatus &&& ~~~status = 0 := by
    rcases h.status with h0 | h0 <;> rw [h0, hstatus] <;> decide
  simp only [proceed, hc, write_rdIrqStatus, hclear]
  exact { h with handed := hh, status := .inl rfl, known := by simp, raised := by simp, acknowledged := by simp }

theorem posts_concat (t : List Event) (c : Coro) (msg : Word) :
    posts (t ++ [.posted c msg]) = posts t ++ [(c, msg)] := by
  simp [posts]

theorem Inv.acknowledged_step (h : Inv s) {msg : Word} (hc : s.core = .acknowledged msg) : Inv s.proceed := by
  have hr := h.raised (by rw [hc]; rfl)
  have hh := h.handed
  simp only [hc, Core.inHand] at hh
  obtain ⟨rest, hq, ha⟩ := h.queued
  simp only [proceed, hc, frame, deliver]
  rcases s.state.pending.pop_cases with ⟨hp, hnil⟩ | ⟨req, q, hp, hcons⟩
  · simp only [hp, List.append_nil]
    refine { h with handed := ?_, known := by simp, raised := fun _ => hr, acknowledged := by simp }
    simp only [Core.inHand, List.append_nil]
    exact (List.sublist_append_left _ _).trans hh
  · -- The oldest waiter is the first one that is not posted yet.
    cases rest with
    | nil => rw [hcons] at hq; cases hq
    | cons w rest =>
      obtain ⟨rfl, hq⟩ := List.cons.inj (hcons.symm.trans hq)
      simp only [hp, mailbox]
      refine { h with
        handed := ?_
        queued := ⟨rest, hq, ?_⟩
        found := ?_
        known := by simp
        raised := fun _ => hr
        acknowledged := by simp }
      · simpa [posts_concat, Core.inHand] using hh
      · simpa [posts_concat] using ha
      · simp [posts_concat, h.found, Memory.load32_store32]

theorem Inv.proceed (h : Inv s) : Inv s.proceed := by
  cases hc : s.core with
  | outside =>
    rw [Fine.proceed, hc]
    exact h
  | statusRead status => exact h.statusRead hc
  | messageRead status msg => exact h.messageRead hc
  | acknowledged msg => exact h.acknowledged_step hc

theorem Inv.step (h : Inv s) {a : Action} (room : Room s a) : Inv (s.step a) := by
  cases a with
  | message m => exact h.message m
  | waitForDoorbell c message => exact h.wait room
  | isr => exact h.isr
  | proceed => exact h.proceed

/-- An unread message keeps the status bit set. -/
def Raised (s : Fine) : Prop := s.state.world.fifo ≠ [] → s.state.world.rdIrqStatus = 1

theorem Raised.not_stranded (h : Raised s) : ¬ Stranded s := by
  rintro ⟨-, hf, hb⟩
  rw [h hf] at hb
  revert hb
  decide

/-- A delivery touches no register. -/
theorem deliver_registers (s : State Mailbox) (msg : Word) :
    (deliver mailbox s msg).world.rdIrqStatus = s.world.rdIrqStatus ∧
      (deliver mailbox s msg).world.fifo = s.world.fifo := by
  unfold deliver
  split
  · exact ⟨rfl, rfl⟩
  · simp only
    split <;> exact ⟨rfl, rfl⟩

/-- Only the acknowledgement clears the bit. -/
theorem Raised.step (h : Raised s) (hi : Inv s) {a : Action} (ha : AllRead s a) : Raised (s.step a) := by
  cases a with
  | message m =>
    intro _
    rcases hi.status with h0 | h0 <;> simp only [Fine.step, h0] <;> decide
  | waitForDoorbell c message =>
    simp only [Fine.step]
    exact iteInduction (fun _ => h) fun _ => h
  | isr =>
    simp only [Fine.step, read_rdIrqStatus]
    exact iteInduction (fun _ => h) fun _ => h
  | proceed =>
    simp only [Fine.step, Fine.proceed]
    cases hc : s.core with
    | outside => exact h
    | statusRead status =>
      simp only [read_msgQueue]
      intro hf
      exact h (mt (fun h0 => by rw [h0, List.tail_nil]) hf)
    | messageRead status msg =>
      simp only [write_rdIrqStatus]
      intro hf
      exact absurd (ha (by rw [hc]; rfl)) hf
    | acknowledged msg =>
      obtain ⟨hs, hf⟩ := deliver_registers s.state msg
      simp only [Raised, hs, hf]
      exact h

/-- In every run that acknowledges no message unread, and whose awaits find
room, doorbells are handed out in order and none is stranded. -/
theorem no_doorbell_stranded (ram : Memory) (acts : List Action)
    (h : Along step (fun s a => Room s a ∧ AllRead s a) (init ram) acts) :
    Orderly (run ram acts) ∧ ¬ Stranded (run ram acts) := by
  let Kept (s : Fine) : Prop := Inv s ∧ Raised s
  have keep (s : Fine) (a : Action) (hs : Kept s) (ha : Room s a ∧ AllRead s a) : Kept (s.step a) :=
    ⟨hs.1.step ha.1, hs.2.step hs.1 ha.2⟩
  have hraised : Raised (init ram) := fun hf => absurd rfl hf
  have hk : Kept (run ram acts) := run_invariant_along keep ⟨.init ram, hraised⟩ h
  exact ⟨hk.1.orderly, hk.2.not_stranded⟩

/-- Two waiters and two messages, the second one sent when the first has been
handed on. -/
private def oneByOne : List Action :=
  [.waitForDoorbell 1 0x07150000, .waitForDoorbell 2 0x07150010, .message 7, .isr, .proceed, .proceed, .proceed,
    .message 8]

theorem no_doorbell_stranded_one_by_one :
    let s := run (fun _ => 0) oneByOne
    s.state.trace = [.suspended 1, .suspended 2, .posted 1 7] ∧ Orderly s ∧ ¬ Stranded s :=
  ⟨by decide, no_doorbell_stranded (fun _ => 0) oneByOne (by decide)⟩

/-- The same with both messages in the FIFO when the interrupt is served. -/
private def burst : List Action :=
  [.waitForDoorbell 1 0x07150000, .waitForDoorbell 2 0x07150010, .message 7, .message 8, .isr, .proceed, .proceed,
    .proceed]

theorem burst_strands_doorbell :
    Along step Room (init fun _ => 0) burst ∧ Stranded (run (fun _ => 0) burst) := by
  decide

end Fine
end IoProcessor.Hal.Msgbox
