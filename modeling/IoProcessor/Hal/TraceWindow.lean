import IoProcessor.Hal.Msgbox
import IoProcessor.Hal.Trace

/-! The trace buffer and the mailbox registers in one flat address space. The
base of RISCV_MSGBOX is the address of the trace buffer, so the mailbox driver
works on bytes of the buffer. -/
namespace IoProcessor.Hal.TraceWindow
open Library MemoryMap History

/-- Memory with the trace state, and the addresses that the mailbox driver has
read. -/
structure Flat where
  buffer : Trace.Buffer
  reads : List Word

/-- A word store of the mailbox driver, which prints nothing. -/
def storeWord (w : Flat) (a v : Word) : Flat :=
  { w with
    buffer.ram := w.buffer.ram.store32 a v
    buffer.text := fun x => if (x - a).toNat < 4 then false else w.buffer.text x }

def flat : Msgbox.Mmio Flat where
  read w a := (w.buffer.ram.load32 a, { w with reads := w.reads ++ [a] })
  write := storeWord
  store := storeWord

abbrev State := Msgbox.State Flat

/-- Awaiters live in coroutine frames, which the linker script puts into the
code window of SRAM C. -/
def InFrame (a : Word) : Prop := 0x07140000 ≤ a.toNat ∧ a.toNat + 4 ≤ 0x07180000

instance (a : Word) : Decidable (InFrame a) := inferInstanceAs (Decidable (_ ∧ _))

inductive Action where
  | trace (call : Trace.Call)
  | msgboxInit
  | ringDoorbellToLinux (message : Word)
  | waitForDoorbell (h : Coro) (message : Word)
  | handleIsr
  deriving DecidableEq, Repr

def step (s : State) : Action → State
  | .trace call => { s with world.buffer := call.apply s.world.buffer }
  | .msgboxInit => { s with world := Msgbox.init flat s.world }
  | .ringDoorbellToLinux message => { s with world := Msgbox.ringDoorbellToLinux flat s.world message }
  | .waitForDoorbell h message => if InFrame message then Msgbox.awaitSuspend s h message else s
  | .handleIsr => Msgbox.handleIsr flat s

def init (ram : Memory) : State where
  pending := .init
  world := ⟨⟨ram, 0, false, fun _ => false⟩, []⟩
  trace := []

def InWindow (x : Word) : Prop :=
  ipcTraceBufferAddr.toNat ≤ x.toNat ∧ x.toNat < ipcTraceBufferAddr.toNat + ipcTraceBufferSize.toNat

/-- Some byte of the word is a character that Trace printed. -/
def HoldsText (s : State) (a : Word) : Prop := ∃ k < 4, s.world.buffer.text (a + BitVec.ofNat 32 k) = true

/-- A call that is not one of Trace leaves the window as it is, and what it
reads is not text. -/
def Owned (s : State) (a : Action) : Prop :=
  match a with
  | .trace _ => True
  | _ => (∀ x, InWindow x → (step s a).world.buffer.ram x = s.world.buffer.ram x) ∧
    ∀ x ∈ (step s a).world.reads.drop s.world.reads.length, ¬ HoldsText s x

/-- The enable register reads as enabled already, and interrupts come before
the text has reached the status register. -/
def Apart (s : State) : Action → Prop
  | .msgboxInit => s.world.buffer.ram.load32 0x07136220 = 1
  | .handleIsr => s.world.buffer.wrapped = false ∧ s.world.buffer.offset ≤ 0x224
  | _ => True

instance (s : State) : (a : Action) → Decidable (Apart s a)
  | .msgboxInit => inferInstanceAs (Decidable (s.world.buffer.ram.load32 0x07136220 = 1))
  | .handleIsr => inferInstanceAs (Decidable (s.world.buffer.wrapped = false ∧ s.world.buffer.offset ≤ 0x224))
  | .trace _ | .ringDoorbellToLinux _ | .waitForDoorbell _ _ => .isTrue trivial

def enableAddr : Word := Msgbox.reg riscvMsgboxBase Msgbox.rdIrqEn Msgbox.rxDirection 0
def statusAddr : Word := Msgbox.reg riscvMsgboxBase Msgbox.rdIrqStatus Msgbox.rxDirection 0
def messageAddr : Word := Msgbox.reg riscvMsgboxBase Msgbox.msgQueue Msgbox.rxDirection Msgbox.rxQueue

/-- The bytes of the buffer that the handler reads as registers. -/
def Watched (k : Nat) : Prop := (0x224 ≤ k ∧ k < 0x228) ∨ (0x270 ≤ k ∧ k < 0x274)

structure Inv (s : State) : Prop where
  atRest : ∀ k, Watched k → s.world.buffer.AtRest k
  frames : ∀ r ∈ s.pending.toList, ∀ a, r.message = some a → InFrame a

theorem inv_init (ram : Memory) : Inv (init ram) := by
  refine ⟨fun k hk => ⟨⟨Nat.zero_le _, fun _ => ?_⟩, fun _ => rfl⟩, by simp [init]⟩
  simp [init]

theorem status_byte {k : Nat} (hk : k < 4) : statusAddr + BitVec.ofNat 32 k = Trace.bufferByte (0x224 + k) := by
  interval_cases k <;> decide

theorem message_byte {k : Nat} (hk : k < 4) : messageAddr + BitVec.ofNat 32 k = Trace.bufferByte (0x270 + k) := by
  interval_cases k <;> decide

/-- The status register shows text as soon as the text has reached it. -/
theorem Inv.holdsText_status {s : State} (h : Inv s) :
    HoldsText s statusAddr ↔ s.world.buffer.wrapped = true ∨ 0x224 < s.world.buffer.offset := by
  have hbyte (k : Nat) (hk : k < 4) := h.atRest (0x224 + k) (.inl ⟨by omega, by omega⟩)
  constructor
  · rintro ⟨k, hk, ht⟩
    rw [status_byte hk] at ht
    have hne : 0x224 + k ≠ s.world.buffer.offset := by
      intro he
      rw [(hbyte k hk).terminated he] at ht
      cases ht
    rcases ((hbyte k hk).text hne).mp ht with hlt | hw
    · exact .inr (by omega)
    · exact .inl hw
  · intro hor
    -- one of the first two bytes is away from the terminator
    by_cases h0 : s.world.buffer.offset = 0x224
    · refine ⟨1, by omega, ?_⟩
      rw [status_byte (by omega)]
      exact ((hbyte 1 (by omega)).text (by omega)).mpr (.inr (hor.resolve_right (by omega)))
    · refine ⟨0, by omega, ?_⟩
      rw [status_byte (by omega)]
      exact ((hbyte 0 (by omega)).text (by omega)).mpr (hor.symm.imp_left (by omega))

/-- Before that, the message register shows none either. -/
theorem Inv.not_holdsText_message {s : State} (h : Inv s) (hw : s.world.buffer.wrapped = false)
    (ho : s.world.buffer.offset ≤ 0x224) : ¬ HoldsText s messageAddr := by
  rintro ⟨k, hk, ht⟩
  rw [message_byte hk] at ht
  have hat := h.atRest (0x270 + k) (.inr ⟨by omega, by omega⟩)
  rcases (hat.text (by omega)).mp ht with hlt | hw'
  · omega
  · simp [hw] at hw'

private theorem frame_outside {m : Memory} {a v x : Word} (ha : InFrame a) (hx : InWindow x) :
    m.store32 a v x = m x := by
  have h1 : ipcTraceBufferAddr.toNat = 0x07136000 := rfl
  have h2 : ipcTraceBufferSize.toNat = 0x8000 := rfl
  have hlen : (Memory.littleEndian 4 v).length = 4 := Memory.littleEndian_length _ _
  obtain ⟨ha1, ha2⟩ := ha
  obtain ⟨hx1, hx2⟩ := hx
  exact Memory.store_outside (by omega) (by omega)

/-- A store keeps what is known about text at bytes away from it, and at bytes
that hold none anyway. -/
private theorem atRest_storeWord {w : Flat} {a v : Word} {k : Nat} (h : w.buffer.AtRest k)
    (hk : ¬ (Trace.bufferByte k - a).toNat < 4 ∨ w.buffer.text (Trace.bufferByte k) = false) :
    (storeWord w a v).buffer.AtRest k := by
  have ht : (storeWord w a v).buffer.text (Trace.bufferByte k) = w.buffer.text (Trace.bufferByte k) := by
    simp only [storeWord]
    split
    · exact (hk.resolve_left (by simpa using ‹_›)).symm
    · rfl
  exact ⟨⟨h.offset, by rw [ht]; exact h.text⟩, by rw [ht]; exact h.terminated⟩

private theorem bufferByte_toNat {k : Nat} (hk : Watched k) :
    (Trace.bufferByte k).toNat = 0x07136000 + k := by
  have h1 : ipcTraceBufferAddr.toNat = 0x07136000 := rfl
  rw [Trace.bufferByte, Memory.toNat_add_small (by unfold Watched at hk; omega), h1]

/-- Watched bytes are away from every word the driver stores to, except the
status register. -/
private theorem watched_away {k : Nat} (hk : Watched k) {a : Word}
    (ha : a.toNat ≤ 0x07136220 ∨ InFrame a) : ¬ (Trace.bufferByte k - a).toNat < 4 := by
  have hb := bufferByte_toNat hk
  unfold Watched at hk
  unfold InFrame at ha
  rw [BitVec.toNat_sub, hb]
  omega

/-- The world after the registers were read and the status was written back. -/
def acknowledged (w : Flat) : Flat :=
  storeWord { w with reads := w.reads ++ [statusAddr, messageAddr] } statusAddr (w.buffer.ram.load32 statusAddr)

theorem acknowledged_ram (w : Flat) : (acknowledged w).buffer.ram = w.buffer.ram :=
  Memory.store32_load32 _ _

theorem handleIsr_none {s : State} (h : s.world.buffer.ram.load32 statusAddr = 0) :
    step s .handleIsr = { s with world.reads := s.world.reads ++ [statusAddr] } := by
  have h' : s.world.buffer.ram.load32 (Msgbox.reg riscvMsgboxBase Msgbox.rdIrqStatus Msgbox.rxDirection 0) = 0 := h
  simp only [step, Msgbox.handleIsr, flat, h', ↓reduceIte]
  rfl

theorem handleIsr_some {s : State} (h : s.world.buffer.ram.load32 statusAddr ≠ 0) :
    step s .handleIsr =
      Msgbox.deliver flat { s with world := acknowledged s.world } (s.world.buffer.ram.load32 messageAddr) := by
  have h' : s.world.buffer.ram.load32 (Msgbox.reg riscvMsgboxBase Msgbox.rdIrqStatus Msgbox.rxDirection 0) ≠ 0 := h
  simp only [step, Msgbox.handleIsr, flat, if_neg h', acknowledged, List.append_assoc, List.cons_append,
    List.nil_append]
  rfl

/-- A delivery stores at most one word, into a coroutine frame. -/
private theorem deliver_world {s : State}
    (frames : ∀ r ∈ s.pending.toList, ∀ a, r.message = some a → InFrame a) (msg : Word) :
    (Msgbox.deliver flat s msg).world = s.world ∨
      ∃ a, InFrame a ∧ (Msgbox.deliver flat s msg).world = storeWord s.world a msg := by
  unfold Msgbox.deliver
  rcases s.pending.pop_cases with ⟨hp, -⟩ | ⟨req, q, hp, hq⟩
  · rw [hp]
    exact .inl rfl
  · rw [hp]
    cases hm : req.message with
    | none => exact .inl (by simp only [hm])
    | some a => exact .inr ⟨a, frames req (by simp [hq]) a hm, by simp only [hm]; rfl⟩

private theorem deliver_frames {s : State} (h : Inv s) (msg : Word) :
    ∀ r ∈ (Msgbox.deliver flat s msg).pending.toList, ∀ a, r.message = some a → InFrame a := by
  unfold Msgbox.deliver
  rcases s.pending.pop_cases with ⟨hp, -⟩ | ⟨req, q, hp, hq⟩
  · rw [hp]
    exact h.frames
  · rw [hp]
    intro r hr
    exact h.frames r (by simp [hq, hr])

theorem Inv.acknowledge {s : State} (h : Inv s) (hw : s.world.buffer.wrapped = false)
    (ho : s.world.buffer.offset ≤ 0x224) : Inv { s with world := acknowledged s.world } := by
  refine ⟨fun k hk => atRest_storeWord (h.atRest k hk) (.inr ?_), h.frames⟩
  by_cases hko : k = s.world.buffer.offset
  · exact (h.atRest k hk).terminated hko
  · rw [← Bool.not_eq_true, (h.atRest k hk).text hko, hw]
    unfold Watched at hk
    simp only [Bool.false_eq_true, or_false]
    omega

theorem Inv.step {s : State} (h : Inv s) {a : Action} (ha : Apart s a) : Inv (step s a) := by
  have hsize : Trace.bufferSize = 0x8000 := rfl
  have stored {a v : Word} (haway : a.toNat ≤ 0x07136220 ∨ InFrame a) :
      Inv { s with world := storeWord s.world a v } :=
    ⟨fun k hk => atRest_storeWord (h.atRest k hk) (.inl (watched_away hk haway)), h.frames⟩
  cases a with
  | trace call =>
    exact ⟨fun k hk => (h.atRest k hk).call (by unfold Watched at hk; omega) call, h.frames⟩
  | msgboxInit => exact stored (.inl (by decide))
  | ringDoorbellToLinux message => exact stored (.inl (by decide))
  | waitForDoorbell c message =>
    simp only [TraceWindow.step]
    split
    · rename_i hm
      refine ⟨h.atRest, ?_⟩
      simp only [Msgbox.awaitSuspend]
      rcases s.pending.push_cases ⟨some c, some message⟩ with ⟨hp, -⟩ | ⟨q, hp, hq, -⟩
      · rw [hp]
        exact h.frames
      · rw [hp, hq]
        intro r hr a hra
        rcases List.mem_append.mp hr with hr | hr
        · exact h.frames r hr a hra
        · rw [List.mem_singleton.mp hr] at hra
          exact Option.some.inj hra ▸ hm
    · exact h
  | handleIsr =>
    obtain ⟨hw, ho⟩ := ha
    by_cases hs : s.world.buffer.ram.load32 statusAddr = 0
    · rw [handleIsr_none hs]
      exact ⟨h.atRest, h.frames⟩
    · rw [handleIsr_some hs]
      have hk := h.acknowledge hw ho
      refine ⟨fun k hk' => ?_, deliver_frames hk _⟩
      rcases deliver_world hk.frames (s.world.buffer.ram.load32 messageAddr) with he | ⟨a, ha, he⟩
      · rw [he]
        exact hk.atRest k hk'
      · rw [he]
        exact atRest_storeWord (hk.atRest k hk') (.inl (watched_away hk' (.inr ha)))

private theorem owned_init (s : State) : Owned s .msgboxInit ↔ Apart s .msgboxInit := by
  have haddr : enableAddr.toNat = 0x07136220 := rfl
  have hworld : (step s .msgboxInit).world = storeWord s.world enableAddr 1 := rfl
  simp only [Owned, Apart, hworld]
  constructor
  · rintro ⟨hram, -⟩
    change s.world.buffer.ram.load32 enableAddr = 1
    rw [← Memory.load32_store32 s.world.buffer.ram enableAddr 1]
    refine (Memory.load32_congr fun k hk => hram _ ?_).symm
    rw [InWindow, Memory.toNat_add_small (by omega), haddr, show ipcTraceBufferAddr.toNat = 0x07136000 from rfl,
      show ipcTraceBufferSize.toNat = 0x8000 from rfl]
    omega
  · intro h
    refine ⟨fun x _ => ?_, by simp [storeWord]⟩
    change s.world.buffer.ram.store32 enableAddr 1 x = _
    rw [← show s.world.buffer.ram.load32 enableAddr = 1 from h, Memory.store32_load32]

private theorem owned_handleIsr {s : State} (h : Inv s) : Owned s .handleIsr ↔ Apart s .handleIsr := by
  have hstatus := h.holdsText_status
  simp only [Owned, Apart]
  constructor
  · rintro ⟨-, hreads⟩
    have hmem : statusAddr ∈ (step s .handleIsr).world.reads.drop s.world.reads.length := by
      by_cases hs : s.world.buffer.ram.load32 statusAddr = 0
      · simp [handleIsr_none hs]
      · rw [handleIsr_some hs]
        have hf : ∀ r ∈ ({ s with world := acknowledged s.world } : State).pending.toList, _ := h.frames
        have hreads : (acknowledged s.world).reads = s.world.reads ++ [statusAddr, messageAddr] := rfl
        rcases deliver_world hf (s.world.buffer.ram.load32 messageAddr) with he | ⟨a, -, he⟩
        · rw [he]
          simp [hreads]
        · rw [he]
          simp [storeWord, hreads]
    have hno := mt hstatus.mpr (hreads _ hmem)
    simp only [not_or, Bool.not_eq_true, not_lt] at hno
    exact hno
  · rintro ⟨hw, ho⟩
    have hno : ¬ HoldsText s statusAddr := by
      rw [hstatus, hw]
      simp only [Bool.false_eq_true, false_or]
      omega
    by_cases hs : s.world.buffer.ram.load32 statusAddr = 0
    · rw [handleIsr_none hs]
      exact ⟨fun x _ => rfl, by simpa using hno⟩
    · rw [handleIsr_some hs]
      have hk := h.acknowledge hw ho
      have hreads : (acknowledged s.world).reads = s.world.reads ++ [statusAddr, messageAddr] := rfl
      have hmsg := h.not_holdsText_message hw ho
      rcases deliver_world hk.frames (s.world.buffer.ram.load32 messageAddr) with he | ⟨a, ha, he⟩
      · rw [he]
        refine ⟨fun x _ => congrFun (acknowledged_ram s.world) x, ?_⟩
        simp only [hreads]
        simp [hno, hmsg]
      · rw [he]
        refine ⟨fun x hx => ?_, ?_⟩
        · simp only [storeWord]
          rw [frame_outside ha hx, acknowledged_ram]
        · simp only [storeWord, hreads]
          simp [hno, hmsg]

theorem Inv.owned_iff {s : State} (h : Inv s) (a : Action) : Owned s a ↔ Apart s a := by
  cases a with
  | trace call => exact Iff.rfl
  | msgboxInit => exact owned_init s
  | ringDoorbellToLinux message =>
    refine iff_of_true ⟨fun x hx => ?_, ?_⟩ trivial
    · have hlen : (Memory.littleEndian 4 message).length = 4 := Memory.littleEndian_length _ _
      have haddr : (Msgbox.reg msgboxBase Msgbox.msgQueue 0 0).toNat = 0x03003070 := rfl
      have hbuf : ipcTraceBufferAddr.toNat = 0x07136000 := rfl
      exact Memory.store_outside (by omega) (.inr (by have := hx.1; omega))
    · simp [TraceWindow.step, Msgbox.ringDoorbellToLinux, flat, storeWord]
  | waitForDoorbell c message =>
    refine iff_of_true ?_ trivial
    simp only [Owned, TraceWindow.step]
    split <;> simp [Msgbox.awaitSuspend]
  | handleIsr => exact owned_handleIsr h

/-- The trace buffer belongs to Trace alone, in a run of Trace and mailbox
calls, exactly when the mailbox is initialised where its enable bit is in the
buffer already and its interrupts come before the text reaches offset 0x224. -/
theorem trace_owned_iff (ram : Memory) (acts : List Action) :
    Along step Owned (init ram) acts ↔ Along step Apart (init ram) acts := by
  have along (s : State) (h : Inv s) : Along step Owned s acts ↔ Along step Apart s acts := by
    induction acts generalizing s with
    | nil => exact Iff.rfl
    | cons a acts ih =>
      rw [Along, Along, h.owned_iff a]
      exact and_congr_right fun ha => ih _ (h.step ha)
  exact along _ (inv_init ram)

/-- The enable bit goes into the buffer, and an interrupt after 600 characters
takes text for its status. -/
theorem mailbox_in_trace_buffer :
    ¬ Along step Owned (init fun _ => 0) [.trace (.puts (some (Trace.chars "boot"))), .msgboxInit] ∧
      ¬ Along step Owned (init fun _ => 0) [.trace (.puts (some (List.replicate 600 0x61))), .handleIsr] := by
  have hinv (text : List Byte) : Inv (step (init fun _ => 0) (.trace (.puts (some text)))) :=
    (inv_init _).step trivial
  constructor
  · rintro ⟨-, h, -⟩
    exact absurd (((hinv _).owned_iff _).mp h) (by decide)
  · rintro ⟨-, h, -⟩
    exact absurd (((hinv _).owned_iff _).mp h) (by decide +kernel)

end IoProcessor.Hal.TraceWindow
