import IoProcessor.Hal.GpioWaiters
import IoProcessor.Library.LowestBit

/-! Edges between the register accesses of Gpio. The masked sections of the
step machine are cut into their accesses here, and an edge may be latched
before any of them. -/
namespace IoProcessor.Hal.Gpio
open Library MemoryMap History LowestBit

theorem ctz_spec {v : Word} (hv : v ≠ 0) :
    (ctz v).toNat < 32 ∧ v.getLsbD (ctz v).toNat = true ∧ ∀ j < (ctz v).toNat, v.getLsbD j = false := by
  unfold ctz
  cases hf : (List.range 32).find? fun i => v.getLsbD i with
  | none =>
    refine absurd (BitVec.eq_of_getLsbD_eq fun i hi => ?_) hv
    simpa using List.find?_eq_none.mp hf i (List.mem_range.mpr hi)
  | some k =>
    obtain ⟨hk, hlt, hbelow⟩ := List.find?_range_eq_some.mp hf
    have hlt : k < 32 := List.mem_range.mp hlt
    have hnat : (BitVec.ofNat 32 k).toNat = k := by simp; omega
    simp only [Option.getD_some, hnat]
    exact ⟨hlt, hk, fun j hj => by simpa using hbelow j hj⟩

/-- `pending &= pending - 1` takes out exactly the lowest bit. -/
theorem getLsbD_without_ctz {v : Word} (hv : v ≠ 0) (i : Nat) :
    (v &&& (v - 1)).getLsbD i = (v.getLsbD i && decide (i ≠ (ctz v).toNat)) := by
  obtain ⟨-, hk, hbelow⟩ := ctz_spec hv
  have hlowest : Lowest v.toNat (ctz v).toNat := ⟨hk, hbelow⟩
  have hpos : 1 ≤ v.toNat := Nat.pos_of_ne_zero fun h => hv (BitVec.eq_of_toNat_eq h)
  have hsub : (v - 1).toNat = v.toNat - 1 := BitVec.toNat_sub_of_le hpos
  have htest := hlowest.testBit_and_pred i
  rw [← hsub, ← BitVec.toNat_and] at htest
  exact htest

/-- Each round leaves one pin fewer to be pending. -/
theorem lowest_taken {v : Word} (hv : v ≠ 0) {n : Nat} (hn : ∀ i, i + (n+1) < 32 → v.getLsbD i = false) (i : Nat)
    (hi : i + n < 32) : (v &&& (v - 1)).getLsbD i = false := by
  obtain ⟨-, hk, hbelow⟩ := ctz_spec hv
  have hlow : 32 ≤ (ctz v).toNat + (n+1) := by
    by_contra hlt
    simp [hn _ (Nat.lt_of_not_le hlt)] at hk
  rw [getLsbD_without_ctz hv]
  rcases Nat.lt_or_ge i (ctz v).toNat with h | h
  · simp [hbelow i h]
  · simp [show i = (ctz v).toNat by omega]

/-- The pins whose bits are set, in ascending order. -/
def setPins (v : Word) : List Word := ((List.range 32).filter fun i => v.getLsbD i).map (BitVec.ofNat 32)

theorem setPins_zero : setPins 0 = [] := by simp [setPins]

/-- The lowest bit comes first, and the others follow it in order. -/
theorem setPins_of_ne_zero {v : Word} (hv : v ≠ 0) : setPins v = ctz v :: setPins (v &&& (v - 1)) := by
  obtain ⟨hlt, hset, hbelow⟩ := ctz_spec hv
  have hlowest : Lowest v.toNat (ctz v).toNat := ⟨hset, hbelow⟩
  have hrest (i : Nat) : (v &&& (v - 1)).getLsbD i = (v.toNat &&& (v.toNat - 1)).testBit i := by
    rw [getLsbD_without_ctz hv, hlowest.testBit_and_pred]
    rfl
  unfold setPins
  simp only [hrest]
  rw [show (fun i => v.getLsbD i) = v.toNat.testBit from rfl, hlowest.filter_range hlt, List.map_cons,
    BitVec.ofNat_toNat, BitVec.setWidth_eq]

/-- The loop of `handle_bank_isr` takes the pins in that order, if it may run
once for every pin that can be left. -/
theorem pendingPins_eq_setPins {n : Nat} {pending : Word} (hn : ∀ i, i + n < 32 → pending.getLsbD i = false) :
    pendingPins n pending = setPins pending := by
  induction n generalizing pending with
  | zero =>
    have hz : pending = 0 := BitVec.eq_of_getLsbD_eq fun i hi => by simpa using hn i hi
    rw [hz, setPins_zero, pendingPins]
  | succ n ih =>
    unfold pendingPins
    split
    · rename_i hz
      rw [hz, setPins_zero]
    · rename_i hz
      rw [setPins_of_ne_zero hz, ih (lowest_taken hz hn)]

/-- The trigger configuration of a pin. -/
def IntRegs.configure (r : IntRegs) (pin : Word) (trigger : IntTrigger) : IntRegs :=
  let shift := (pin % 8 * 4).toNat
  let cfg := (r.cfg (pin / 8) &&& ~~~(0x0F#32 <<< shift)) ||| ((trigger.toWord &&& 0x0F) <<< shift)
  { r with cfg := Function.update r.cfg (pin / 8) cfg }

/-- What the core is in the middle of while its interrupts are masked. -/
inductive Core where
  | unmasked
  | configured (port pin : Word)
  | discarded (port pin : Word)
  | statusRead (port status : Word)
  | pendingKnown (port pending : Word)
  | dispatching (port pending : Word)
  deriving DecidableEq, Repr

/-- The accesses that matter to a latched edge: the STATUS writes of
`enable_pin_interrupt` and `handle_bank_isr`, and what the latter dispatches. -/
inductive Access where
  | discarded (port pin : Word)
  | acknowledged (port pending : Word)
  | dispatched (port pin : Word)
  deriving DecidableEq, Repr

structure Fine where
  state : State
  core : Core
  log : List Access

namespace Fine

inductive Action where
  | edge (port : Word) (pin : Fin 32)
  | waitForEdge (h : Coro) (port pin : Word)
  | registerPinIsr (port pin : Word) (callback : Option Nat) (context : Nat) (trigger : IntTrigger)
  | bankIsr (port : Word)
  | proceed
  deriving DecidableEq, Repr

/-- The next access of the core. CFG and CTL are written by the core only, so
their read-modify-write is one access. -/
def proceed (s : Fine) : Fine :=
  match s.core with
  | .unmasked =>
    match s.state.pc with
    | .enabling port pin trigger =>
      { s with state := updateRegs s.state port (·.configure pin trigger), core := .configured port pin }
    | _ => s
  | .configured port pin =>
    { state := updateRegs s.state port (·.writeStatus (bit pin))
      core := .discarded port pin
      log := s.log ++ [.discarded port pin] }
  | .discarded port pin =>
    { s with
      state := { updateRegs s.state port (fun r => { r with ctl := r.ctl ||| bit pin }) with pc := .outside }
      core := .unmasked }
  | .statusRead port status =>
    let pending := status &&& (s.state.regs (intRegsAddr port)).ctl
    { s with core := if pending = 0 then .unmasked else .pendingKnown port pending }
  | .pendingKnown port pending =>
    { state := updateRegs s.state port (·.writeStatus pending)
      core := .dispatching port pending
      log := s.log ++ [.acknowledged port pending] }
  | .dispatching port pending =>
    if pending = 0 then { s with core := .unmasked }
    else
      { state := dispatchPinEvent s.state port (ctz pending)
        core := .dispatching port (pending &&& (pending - 1))
        log := s.log ++ [.dispatched port (ctz pending)] }

/-- Calls and interrupts begin while interrupts are not masked; edges come at
any time. -/
def step (s : Fine) : Action → Fine
  | .edge port pin => { s with state := Gpio.step s.state (.edge port (BitVec.ofNat 32 pin)) }
  | .waitForEdge h port pin =>
    if s.core = .unmasked then { s with state := Gpio.step s.state (.waitForEdge h port pin) } else s
  | .registerPinIsr port pin callback context trigger =>
    if s.core = .unmasked then
      { s with state := Gpio.step s.state (.registerPinIsr port pin callback context trigger) }
    else s
  | .bankIsr port =>
    if s.core = .unmasked then { s with core := .statusRead port (s.state.regs (intRegsAddr port)).status } else s
  | .proceed => s.proceed

def init : Fine := ⟨Gpio.init, .unmasked, []⟩

abbrev run (acts : List Action) : Fine := History.run step init acts

/-- With no edge between its accesses, the masked section that is left of an
await or a registration is one step of the coarser machine. -/
theorem run_enabling {s : Fine} {port pin : Word} {trigger : IntTrigger} (hc : s.core = .unmasked)
    (hp : s.state.pc = .enabling port pin trigger) :
    History.run step s [.proceed, .proceed, .proceed] =
      ⟨Gpio.step s.state .proceed, .unmasked, s.log ++ [.discarded port pin]⟩ := by
  simp [step, proceed, hc, hp, Gpio.step, enablePinInterrupt, updateRegs, IntRegs.configure, IntRegs.writeStatus]

/-- The loop of `handle_bank_isr`; the pins still pending are the last n. -/
private theorem run_dispatching (port : Word) (n : Nat) (pending : Word) (s : State) (log : List Access)
    (hn : ∀ i, i + n < 32 → pending.getLsbD i = false) :
    ∃ m, History.run step ⟨s, .dispatching port pending, log⟩ (List.replicate m .proceed) =
      ⟨servePins port n pending s, .unmasked, log ++ (pendingPins n pending).map (.dispatched port)⟩ := by
  have hdone (s : State) (log : List Access) :
      History.run step ⟨s, .dispatching port 0, log⟩ (List.replicate 1 .proceed) = ⟨s, .unmasked, log⟩ := rfl
  induction n generalizing pending s log with
  | zero =>
    have hz : pending = 0 := BitVec.eq_of_getLsbD_eq fun i hi => by simpa using hn i hi
    exact ⟨1, by rw [hz, hdone]; simp [servePins, pendingPins]⟩
  | succ n ih =>
    by_cases hz : pending = 0
    · exact ⟨1, by rw [hz, hdone]; simp [servePins, pendingPins]⟩
    · have hrest := lowest_taken hz hn
      obtain ⟨m, hm⟩ := ih _ (dispatchPinEvent s port (ctz pending)) (log ++ [.dispatched port (ctz pending)]) hrest
      refine ⟨m+1, ?_⟩
      rw [List.replicate_succ, History.run_cons]
      simp only [step, proceed, if_neg hz, hm]
      rw [servePins, pendingPins, if_neg hz, if_neg hz, List.append_assoc]
      rfl

/-- And so is a bank interrupt, whose accesses are one acknowledgement and a
dispatch for each pending pin. -/
theorem run_bankIsr {s : Fine} (hc : s.core = .unmasked) (port : Word) :
    let pending := (s.state.regs (intRegsAddr port)).status &&& (s.state.regs (intRegsAddr port)).ctl
    ∃ m, History.run step s (.bankIsr port :: List.replicate m .proceed) =
      ⟨Gpio.step s.state (.bankIsr port), .unmasked, s.log ++ (if pending = 0 then [] else [.acknowledged port pending]) ++
        (setPins pending).map (.dispatched port)⟩ := by
  rw [Gpio.step, handleBankIsr]
  simp only [History.run_cons, step, hc, if_true]
  generalize (s.state.regs (intRegsAddr port)).status = status
  by_cases hz : status &&& (s.state.regs (intRegsAddr port)).ctl = 0
  · exact ⟨1, by simpa [List.replicate, step, proceed, hz] using setPins_zero⟩
  · rw [if_neg hz, if_neg hz]
    have hpending : step { s with core := .statusRead port status } .proceed =
        { s with core := .pendingKnown port (status &&& (s.state.regs (intRegsAddr port)).ctl) } := by
      simp only [step, proceed, if_neg hz]
    generalize status &&& (s.state.regs (intRegsAddr port)).ctl = pending at *
    obtain ⟨m, hm⟩ := run_dispatching port 32 pending (updateRegs s.state port (·.writeStatus pending))
      (s.log ++ [.acknowledged port pending]) (by omega)
    rw [pendingPins_eq_setPins (by omega)] at hm
    refine ⟨m+2, ?_⟩
    rw [List.replicate_succ, List.replicate_succ, History.run_cons, hpending, History.run_cons]
    exact hm

theorem serveQueue_regs (port pin : Word) (n : Nat) (s : State) : (serveQueue port pin n s).regs = s.regs := by
  induction n generalizing s with
  | zero => rfl
  | succ n ih =>
    unfold serveQueue
    split
    · rfl
    · split
      · rfl
      · exact ih _

/-- Waking a waiter and calling a handler do not touch the registers. -/
theorem dispatchPinEvent_regs (s : State) (port pin : Word) : (dispatchPinEvent s port pin).regs = s.regs := by
  refine (serveQueue_regs port pin _ _).trans ?_
  unfold callHandler
  split
  · split <;> rfl
  · rfl

theorem servePins_regs (port : Word) (n : Nat) (pending : Word) (s : State) :
    (servePins port n pending s).regs = s.regs := by
  induction n generalizing pending s with
  | zero => rfl
  | succ n ih =>
    unfold servePins
    split
    · rfl
    · exact (ih _ _).trans (dispatchPinEvent_regs s port _)

theorem handleBankIsr_regs (s : State) (port : Word) :
    let r := s.regs (intRegsAddr port)
    (handleBankIsr s port).regs =
      Function.update s.regs (intRegsAddr port) { r with status := r.status &&& ~~~(r.status &&& r.ctl) } := by
  intro r
  unfold handleBankIsr
  simp only
  split
  · rename_i hz
    rw [hz, BitVec.ofNat_eq_ofNat, BitVec.not_zero, BitVec.and_allOnes]
    exact (Function.update_eq_self _ _).symm
  · rw [servePins_regs]
    rfl

/-- An interrupt of a bank, with no edge during it, ends; it dispatches exactly
the pins that are pending and enabled, each once and in ascending order, and
of all interrupt registers it clears exactly their STATUS bits. -/
theorem bank_isr_serves_enabled (s : State) (port : Word) :
    let r := s.regs (intRegsAddr port)
    let pending := r.status &&& r.ctl
    ∃ m t, History.run step ⟨s, .unmasked, []⟩ (.bankIsr port :: List.replicate m .proceed) =
        ⟨t, .unmasked, (if pending = 0 then [] else [.acknowledged port pending]) ++
          (setPins pending).map (.dispatched port)⟩ ∧
      t = handleBankIsr s port ∧
      t.regs = Function.update s.regs (intRegsAddr port) { r with status := r.status &&& ~~~pending } := by
  intro r pending
  obtain ⟨m, hm⟩ := run_bankIsr (s := ⟨s, .unmasked, []⟩) rfl port
  exact ⟨m, _, hm, rfl, handleBankIsr_regs s port⟩

/-- The edge is latched in the STATUS register of the bank. -/
def Latched (s : Fine) (port : Word) (pin : Fin 32) : Prop :=
  (s.state.regs (intRegsAddr port)).status.getLsbD pin = true

instance (s : Fine) (port : Word) (pin : Fin 32) : Decidable (s.Latched port pin) :=
  inferInstanceAs (Decidable (_ = true))

/-- A STATUS write to the registers of a port that clears the pin. -/
def Clears (port : Word) (pin : Fin 32) : Access → Prop
  | .discarded port' pin' => intRegsAddr port' = intRegsAddr port ∧ pin'.toNat = pin
  | .acknowledged port' pending => intRegsAddr port' = intRegsAddr port ∧ pending.getLsbD pin = true
  | .dispatched _ _ => False

/-- What one step can do to the edges. -/
inductive Moves (s t : Fine) : Prop
  | quiet (log : t.log = s.log) (status : ∀ port pin, s.Latched port pin → t.Latched port pin)
      (core : ∀ port pending, s.core = .dispatching port pending → pending ≠ 0 → t.core = s.core)
  | discards (port pin : Word) (before : s.core = .configured port pin) (log : t.log = s.log ++ [.discarded port pin])
      (status : ∀ port' i, s.Latched port' i → t.Latched port' i ∨ Clears port' i (.discarded port pin))
      (cleared : ∀ port' i, Clears port' i (.discarded port pin) → ¬ t.Latched port' i)
  | acknowledges (port pending : Word) (before : s.core = .pendingKnown port pending)
      (after : t.core = .dispatching port pending) (log : t.log = s.log ++ [.acknowledged port pending])
      (status : ∀ port' i, s.Latched port' i → t.Latched port' i ∨ Clears port' i (.acknowledged port pending))
      (cleared : ∀ port' i, Clears port' i (.acknowledged port pending) → ¬ t.Latched port' i)
  | dispatches (port pending : Word) (before : s.core = .dispatching port pending) (some_left : pending ≠ 0)
      (after : t.core = .dispatching port (pending &&& (pending - 1)))
      (log : t.log = s.log ++ [.dispatched port (ctz pending)])
      (status : ∀ port' i, s.Latched port' i → t.Latched port' i)

end Fine

private theorem status_updateRegs (s : State) (port port' : Word) (f : IntRegs → IntRegs) :
    ((updateRegs s port f).regs (intRegsAddr port')).status =
      if intRegsAddr port' = intRegsAddr port then (f (s.regs (intRegsAddr port))).status
      else (s.regs (intRegsAddr port')).status := by
  simp only [updateRegs, Function.update_apply]
  split <;> rfl

private theorem status_writeStatus {s : State} {port port' v : Word} {pin : Fin 32}
    (h : (s.regs (intRegsAddr port')).status.getLsbD pin = true) :
    ((updateRegs s port (·.writeStatus v)).regs (intRegsAddr port')).status.getLsbD pin = true ∨
      (intRegsAddr port = intRegsAddr port' ∧ v.getLsbD pin = true) := by
  rw [status_updateRegs]
  split
  · rename_i he
    rw [he] at h
    cases hv : v.getLsbD pin with
    | true => exact .inr ⟨he.symm, rfl⟩
    | false =>
      rw [IntRegs.writeStatus, BitVec.getLsbD_and, BitVec.getLsbD_not, h, hv]
      exact .inl (by simp)
  · exact .inl h

private theorem status_cleared {s : State} {port port' v : Word} {pin : Fin 32} (ha : intRegsAddr port = intRegsAddr port')
    (hv : v.getLsbD pin = true) :
    ¬ ((updateRegs s port (·.writeStatus v)).regs (intRegsAddr port')).status.getLsbD pin = true := by
  rw [status_updateRegs, if_pos ha.symm, IntRegs.writeStatus, BitVec.getLsbD_and, BitVec.getLsbD_not, hv]
  simp

/-- An update that leaves STATUS alone or adds to it. -/
private theorem status_kept {s : State} {port port' : Word} {f : IntRegs → IntRegs} {i : Nat}
    (hf : ∀ r : IntRegs, r.status.getLsbD i = true → (f r).status.getLsbD i = true)
    (h : (s.regs (intRegsAddr port')).status.getLsbD i = true) :
    ((updateRegs s port f).regs (intRegsAddr port')).status.getLsbD i = true := by
  rw [status_updateRegs]
  split
  · rename_i he
    exact hf _ (he ▸ h)
  · exact h

private theorem getLsbD_bit (pin : Word) (i : Nat) : (bit pin).getLsbD i = true ↔ i < 32 ∧ i = pin.toNat := by
  simp only [bit, BitVec.getLsbD_shiftLeft, BitVec.getLsbD_one]
  grind

theorem serveQueue_regs (port pin : Word) (n : Nat) (s : State) : (serveQueue port pin n s).regs = s.regs := by
  induction n generalizing s with
  | zero => rfl
  | succ n ih =>
    unfold serveQueue
    split
    · rfl
    · split
      · rfl
      · exact ih _

theorem dispatchPinEvent_regs (s : State) (port pin : Word) : (dispatchPinEvent s port pin).regs = s.regs := by
  rw [dispatchPinEvent, serveQueue_regs, callHandler]
  split
  · split <;> rfl
  · rfl

namespace Fine

theorem proceed_moves (s : Fine) : Moves s s.proceed := by
  unfold proceed
  split
  · rename_i hc
    split
    · rename_i port pin trigger hp
      refine .quiet rfl ?_ (by simp [hc])
      intro port' pin' h
      exact status_kept (f := (·.configure pin trigger)) (fun _ hr => hr) h
    · exact .quiet rfl (fun _ _ h => h) (by simp [hc])
  · rename_i port pin hc
    refine .discards port pin hc rfl (fun port' i h => ?_) fun port' i h => ?_
    · rcases status_writeStatus (v := bit pin) h with h | ⟨ha, hb⟩
      · exact .inl h
      · exact .inr ⟨ha, ((getLsbD_bit pin i).mp hb).2.symm⟩
    · exact status_cleared h.1 ((getLsbD_bit pin i).mpr ⟨i.isLt, h.2.symm⟩)
  · rename_i port pin hc
    refine .quiet rfl ?_ (by simp [hc])
    intro port' pin' h
    let enable (r : IntRegs) : IntRegs := { r with ctl := r.ctl ||| bit pin }
    have hk : ((updateRegs s.state port enable).regs (intRegsAddr port')).status.getLsbD pin' = true :=
      status_kept (fun _ hr => hr) h
    exact hk
  · rename_i port status hc
    exact .quiet rfl (fun _ _ h => h) (by simp [hc])
  · rename_i port pending hc
    exact .acknowledges port pending hc rfl rfl (fun port' i h => status_writeStatus h) fun port' i h => status_cleared h.1 h.2
  · rename_i port pending hc
    split
    · rename_i hz
      refine .quiet rfl (fun _ _ h => h) ?_
      rintro port' pending' hc' hne
      rw [hc] at hc'
      cases hc'
      exact absurd hz hne
    · rename_i hne
      refine .dispatches port pending hc hne rfl rfl fun port' i h => ?_
      unfold Latched
      rw [dispatchPinEvent_regs]
      exact h

theorem step_moves (s : Fine) (a : Action) : Moves s (s.step a) := by
  cases a with
  | edge port pin =>
    refine .quiet rfl ?_ (fun _ _ _ _ => rfl)
    intro port' pin' h
    exact status_kept (f := fun r => { r with status := r.status ||| bit (BitVec.ofNat 32 pin) })
      (fun r hr => by rw [BitVec.getLsbD_or, hr, Bool.true_or]) h
  | waitForEdge h port pin =>
    simp only [step]
    split
    · refine .quiet rfl ?_ (fun _ _ _ _ => rfl)
      intro port' pin' hl
      simp only [Gpio.step, Latched]
      split <;> exact hl
    · exact .quiet rfl (fun _ _ h => h) (fun _ _ _ _ => rfl)
  | registerPinIsr port pin callback context trigger =>
    simp only [step]
    split
    · refine .quiet rfl ?_ (fun _ _ _ _ => rfl)
      intro port' pin' hl
      simp only [Gpio.step, Gpio.registerPinIsr, Latched]
      split
      · split <;> exact hl
      · exact hl
    · exact .quiet rfl (fun _ _ h => h) (fun _ _ _ _ => rfl)
  | bankIsr port =>
    simp only [step]
    split
    · rename_i hc
      exact .quiet rfl (fun _ _ h => h) (by simp [hc])
    · exact .quiet rfl (fun _ _ h => h) (fun _ _ _ _ => rfl)
  | proceed => exact proceed_moves s

/-- Only the core's own accesses are logged. -/
private theorem proceed_of_logged {s : Fine} {a : Action} {x : Access} (h : (s.step a).log = s.log ++ [x]) :
    a = .proceed := by
  cases a with
  | proceed => rfl
  | edge port pin => exact absurd h (by simp [step])
  | waitForEdge w port pin | registerPinIsr port pin callback context trigger | bankIsr port =>
    simp only [step] at h
    split at h <;> exact absurd h (by simp)

/-- What one step adds to the log. An edge goes exactly with an access that
clears it, and a discard is an access of `enable_pin_interrupt`. -/
theorem step_logs (s : Fine) (a : Action) :
    ∃ l, (s.step a).log = s.log ++ l ∧
      (∀ port pin, s.Latched port pin → (s.step a).Latched port pin ∨ ∃ x ∈ l, Clears port pin x) ∧
      (∀ port pin, ∀ x ∈ l, Clears port pin x → ¬ (s.step a).Latched port pin) ∧
      ∀ port pin, .discarded port pin ∈ l → a = .proceed ∧ s.core = .configured port pin := by
  cases step_moves s a with
  | quiet log status core =>
    exact ⟨[], by simp [log], fun port pin h => .inl (status port pin h), by simp, by simp⟩
  | dispatches port pending before some_left after log status =>
    refine ⟨_, log, fun port pin h => .inl (status port pin h), ?_, by simp⟩
    intro port' pin' x hx hc
    cases List.mem_singleton.mp hx
    exact absurd hc id
  | acknowledges port pending before after log status cleared =>
    refine ⟨_, log, fun port' pin h => (status port' pin h).imp_right fun hc => ⟨_, by simp, hc⟩, ?_, by simp⟩
    intro port' pin' x hx hc
    cases List.mem_singleton.mp hx
    exact cleared port' pin' hc
  | discards port pin before log status cleared =>
    refine ⟨_, log, fun port' i h => (status port' i h).imp_right fun hc => ⟨_, by simp, hc⟩, ?_, ?_⟩
    · intro port' pin' x hx hc
      cases List.mem_singleton.mp hx
      exact cleared port' pin' hc
    · intro port' pin' hmem
      cases List.mem_singleton.mp hmem
      exact ⟨proceed_of_logged log, before⟩

/-- A latched edge is latched until a logged STATUS write clears it. -/
theorem run_latched (s : Fine) (acts : List Action) :
    ∃ u, (History.run step s acts).log = s.log ++ u ∧ ∀ port pin, s.Latched port pin →
      (History.run step s acts).Latched port pin ∨ ∃ x ∈ u, Clears port pin x := by
  induction acts generalizing s with
  | nil => exact ⟨[], by simp, fun _ _ h => .inl h⟩
  | cons a acts ih =>
    obtain ⟨l, hlog, hstep, -, -⟩ := step_logs s a
    obtain ⟨u, hu, hl⟩ := ih (s.step a)
    rw [History.run_cons]
    refine ⟨l ++ u, by rw [hu, hlog, List.append_assoc], fun port pin h => ?_⟩
    rcases hstep port pin h with h | ⟨x, hx, hc⟩
    · exact (hl port pin h).imp_right fun ⟨x, hx, hc⟩ => ⟨x, List.mem_append_right l hx, hc⟩
    · exact .inr ⟨x, List.mem_append_left u hx, hc⟩

/-- The call that wrote `pending` to STATUS has dispatched the pin since, or
has it among those left. -/
def Dispatches (s : Fine) (port : Word) (pin : Fin 32) (since : List Access) : Prop :=
  .dispatched port (BitVec.ofNat 32 pin) ∈ since ∨
    ∃ rest, s.core = .dispatching port rest ∧ rest.getLsbD pin = true

/-- Every pin that `handle_bank_isr` acknowledges it dispatches. -/
def Answered (s : Fine) : Prop :=
  ∀ before port pending since, s.log = before ++ .acknowledged port pending :: since →
    ∀ pin : Fin 32, pending.getLsbD pin = true → s.Dispatches port pin since

theorem Moves.dispatches_more {s t : Fine} (hm : Moves s t) {port : Word} {pin : Fin 32} {since u : List Access}
    (hu : t.log = s.log ++ u) (h : s.Dispatches port pin since) : t.Dispatches port pin (since ++ u) := by
  rcases h with h | ⟨rest, hc, hr⟩
  · exact .inl (by simp [h])
  cases hm with
  | quiet log status core =>
    have hne : rest ≠ 0 := by
      rintro rfl
      simp at hr
    exact .inr ⟨rest, (core port rest hc hne).trans hc, hr⟩
  | discards port' pin' before log status cleared => simp [hc] at before
  | acknowledges port' pending before after log status cleared => simp [hc] at before
  | dispatches port' pending before some_left after log status =>
    rw [hc] at before
    cases before
    rw [log] at hu
    rw [← List.append_cancel_left hu]
    by_cases hp : (ctz rest).toNat = pin
    · refine .inl ?_
      rw [← hp, BitVec.ofNat_toNat, BitVec.setWidth_eq]
      simp
    · refine .inr ⟨_, after, ?_⟩
      rw [getLsbD_without_ctz some_left, hr]
      simpa using Ne.symm hp

theorem step_answered {s : Fine} (h : Answered s) (a : Action) : Answered (s.step a) := by
  have hm := step_moves s a
  intro before port pending since hl pin hp
  -- The write is an old one, or the newest event.
  have old {u : List Access} (hu : (s.step a).log = s.log ++ u) {rest : List Access}
      (hs : s.log = before ++ .acknowledged port pending :: rest) : (s.step a).Dispatches port pin (rest ++ u) :=
    hm.dispatches_more hu (h before port pending rest hs pin hp)
  cases hm with
  | quiet log status core =>
    have := old (u := []) (by simp [log]) (log ▸ hl)
    simpa using this
  | discards port' pin' hb log status cleared =>
    rw [log] at hl
    obtain ⟨he, -, -⟩ | ⟨rest, hs, rfl⟩ := split_concat hl
    · cases he
    · exact old log hs
  | acknowledges port' pending' hb after log status cleared =>
    rw [log] at hl
    obtain ⟨he, -, rfl⟩ | ⟨rest, hs, rfl⟩ := split_concat hl
    · cases he
      exact .inr ⟨pending, after, hp⟩
    · exact old log hs
  | dispatches port' pending' hb some_left after log status =>
    rw [log] at hl
    obtain ⟨he, -, -⟩ | ⟨rest, hs, rfl⟩ := split_concat hl
    · cases he
    · exact old log hs

theorem run_answered (acts : List Action) : Answered (run acts) := by
  have hinit : Answered init := by
    intro before port pending since h
    simp [init] at h
  have keep (s : Fine) (a : Action) (h : Answered s) : Answered (s.step a) := step_answered h a
  exact run_invariant keep hinit acts

/-- The STATUS write that cleared an edge: one that `enable_pin_interrupt` makes
for its pin, or one of a `handle_bank_isr` that dispatches the pin. -/
inductive ClearedBy (s : Fine) (port : Word) (pin : Fin 32) (since : List Access) : Access → Prop
  | discarded (port' pin' : Word) (bank : intRegsAddr port' = intRegsAddr port) (same : pin'.toNat = pin) :
      ClearedBy s port pin since (.discarded port' pin')
  | served (port' pending : Word) (bank : intRegsAddr port' = intRegsAddr port)
      (pin_pending : pending.getLsbD pin = true) (dispatch : s.Dispatches port' pin since) :
      ClearedBy s port pin since (.acknowledged port' pending)

private theorem exists_first {α : Type*} {P : α → Prop} {l : List α} (h : ∃ x ∈ l, P x) :
    ∃ before x after, l = before ++ x :: after ∧ P x ∧ ∀ y ∈ before, ¬ P y := by
  classical
  have hsome : (l.find? (decide <| P ·)).isSome := by simpa using h
  obtain ⟨x, hx⟩ := Option.isSome_iff_exists.mp hsome
  obtain ⟨hp, before, after, hl, hbefore⟩ := List.find?_eq_some_iff_append.mp hx
  exact ⟨before, x, after, hl, by simpa using hp, by simpa using hbefore⟩

private theorem latched_edge (s : Fine) (port : Word) (pin : Fin 32) : (s.step (.edge port pin)).Latched port pin := by
  unfold Latched
  simp only [step, Gpio.step, status_updateRegs, if_true, BitVec.getLsbD_or]
  rw [(getLsbD_bit _ _).mpr ⟨pin.isLt, by simp; omega⟩, Bool.or_true]

/-- Whatever happens after an edge, it is still latched, or the first STATUS
write that cleared it is one of a call that dispatches its pin, or the one with
which `enable_pin_interrupt` discards what is latched for that pin. -/
theorem edge_cleared_by (before after : List Action) (port : Word) (pin : Fin 32) :
    let s := run (before ++ .edge port pin :: after)
    ∃ u, s.log = (run before).log ++ u ∧
      (s.Latched port pin ∨ ∃ u₁ x u₂, u = u₁ ++ x :: u₂ ∧ (∀ y ∈ u₁, ¬ Clears port pin y) ∧
        s.ClearedBy port pin u₂ x) := by
  intro s
  have hs : s = History.run step ((run before).step (.edge port pin)) after := run_append _ _ _ _
  have hlatch := latched_edge (run before) port pin
  obtain ⟨u, hu, hl⟩ := run_latched ((run before).step (.edge port pin)) after
  rw [← hs] at hu hl
  refine ⟨u, hu, (hl port pin hlatch).imp_right fun hclear => ?_⟩
  obtain ⟨u₁, x, u₂, rfl, hx, hfirst⟩ := exists_first hclear
  refine ⟨u₁, x, u₂, rfl, hfirst, ?_⟩
  cases x with
  | discarded port' pin' => exact .discarded port' pin' hx.1 hx.2
  | acknowledged port' pending =>
    have hlog : s.log = ((run before).log ++ u₁) ++ .acknowledged port' pending :: u₂ := by
      rw [hu, List.append_assoc]
      rfl
    exact .served port' pending hx.1 hx.2 (run_answered _ _ _ _ _ hlog pin hx.2)
  | dispatched port' pin' => exact absurd hx id

/-- The pin is enabled, and a waiter or a handler is registered for it. -/
def Wanted (s : Fine) (port pin : Word) : Prop :=
  (s.state.regs (intRegsAddr port)).ctl.getLsbD pin.toNat = true ∧
    ((∃ r ∈ s.state.pending.toList, r.pinEvent = (port, pin)) ∨
      ∃ slot ∈ s.state.handlers, slot.callback ≠ none ∧ slot.port = port ∧ slot.pin = pin)

instance (s : Fine) (port pin : Word) : Decidable (s.Wanted port pin) := inferInstanceAs (Decidable (_ ∧ _))

/-- After the accesses `u` an edge is still latched, or the first of them to clear
it is one of a `handle_bank_isr` that dispatches the pin. -/
def Served (s : Fine) (port : Word) (pin : Fin 32) (u : List Access) : Prop :=
  s.Latched port pin ∨ ∃ u₁ port' pending u₂, u = u₁ ++ .acknowledged port' pending :: u₂ ∧
    (∀ y ∈ u₁, ¬ Clears port pin y) ∧ intRegsAddr port' = intRegsAddr port ∧ pending.getLsbD pin = true ∧
    s.Dispatches port' pin u₂

/-- No edge on a pin that was enabled and registered is discarded. -/
def EdgesServed (acts : List Action) : Prop :=
  ∀ (before : List Action) (port : Word) (pin : Fin 32) (after : List Action),
    acts = before ++ .edge port pin :: after → (run before).Wanted port (BitVec.ofNat 32 pin) →
    ∃ u, (run acts).log = (run before).log ++ u ∧ (run acts).Served port pin u

end Fine

/-- The machine together with the edges that it owes to somebody: those that came
while their pin was wanted and have been latched since, by bank and pin. -/
structure Owing where
  fine : Fine
  owed : Word → Fin 32 → Bool

namespace Owing

def step (w : Owing) (a : Fine.Action) : Owing where
  fine := w.fine.step a
  owed := fun bank pin =>
    (w.owed bank pin || match a with
      | .edge port pin' => intRegsAddr port == bank && pin' == pin && decide (w.fine.Wanted port (BitVec.ofNat 32 pin))
      | _ => false) && ((w.fine.step a).state.regs bank).status.getLsbD pin

def init : Owing := ⟨Fine.init, fun _ _ => false⟩

abbrev run (acts : List Fine.Action) : Owing := History.run step init acts

/-- The next access of the core discards no edge that is owed. -/
def Spared (w : Owing) : Core → Prop
  | .configured port pin => ∀ i : Fin 32, pin.toNat = i → w.owed (intRegsAddr port) i = false
  | _ => True

instance (w : Owing) : (core : Core) → Decidable (w.Spared core)
  | .configured port pin => inferInstanceAs (Decidable (∀ i : Fin 32, pin.toNat = i → w.owed (intRegsAddr port) i = false))
  | .unmasked | .discarded .. | .statusRead .. | .pendingKnown .. | .dispatching .. => .isTrue trivial

/-- The STATUS write of `enable_pin_interrupt` meets no edge that is owed. -/
def Spares (w : Owing) : Fine.Action → Prop
  | .proceed => w.Spared w.fine.core
  | _ => True

instance (w : Owing) : (a : Fine.Action) → Decidable (w.Spares a)
  | .proceed => inferInstanceAs (Decidable (w.Spared w.fine.core))
  | .edge .. | .waitForEdge .. | .registerPinIsr .. | .bankIsr _ => .isTrue trivial

theorem run_fine (w : Owing) (acts : List Fine.Action) :
    (History.run step w acts).fine = History.run Fine.step w.fine acts :=
  run_project (fun _ _ => rfl) w acts

theorem step_owed {w : Owing} {a : Fine.Action} {port : Word} {pin : Fin 32} (ho : w.owed (intRegsAddr port) pin = true)
    (hl : (w.step a).fine.Latched port pin) : (w.step a).owed (intRegsAddr port) pin = true := by
  have hs : ((w.fine.step a).state.regs (intRegsAddr port)).status.getLsbD pin = true := hl
  simp [step, ho, hs]

/-- Where every step spares what is owed, the first access that clears such an
edge is no discard. -/
theorem run_spared {w : Owing} {acts : List Fine.Action} (h : Along step Spares w acts) {port : Word} {pin : Fin 32}
    (hl : w.fine.Latched port pin) (ho : w.owed (intRegsAddr port) pin = true) {u₁ u₂ : List Access} {port' pin' : Word}
    (hlog : (History.run step w acts).fine.log = w.fine.log ++ (u₁ ++ .discarded port' pin' :: u₂))
    (hfirst : ∀ y ∈ u₁, ¬ Fine.Clears port pin y) : ¬ Fine.Clears port pin (.discarded port' pin') := by
  induction acts generalizing w u₁ with
  | nil => simp at hlog
  | cons a acts ih =>
    obtain ⟨l, hstep, hkept, -, hdiscard⟩ := w.fine.step_logs a
    obtain ⟨v, hv, -⟩ := Fine.run_latched (w.step a).fine acts
    rw [History.run_cons, run_fine, hv, show (w.step a).fine = w.fine.step a from rfl, hstep, List.append_assoc] at hlog
    have hsplit := List.append_cancel_left hlog
    by_cases hmem : .discarded port' pin' ∈ l
    · -- the discard is this step's own
      obtain ⟨rfl, hcore⟩ := hdiscard port' pin' hmem
      rintro ⟨hbank, hpin⟩
      have hspares := h.1
      simp only [Spares, hcore, Spared] at hspares
      have hnone := hspares pin hpin
      rw [hbank, ho] at hnone
      cases hnone
    · obtain ⟨v₁, rfl, hv₁⟩ : ∃ v₁, u₁ = l ++ v₁ ∧ v = v₁ ++ .discarded port' pin' :: u₂ := by
        obtain ⟨v₁, hu, hv⟩ | ⟨l₂, hll, hv⟩ := List.append_eq_append_iff.mp hsplit
        · exact ⟨v₁, hu, hv⟩
        · cases l₂ with
          | nil => exact ⟨[], by simpa using hll.symm, by simpa using hv.symm⟩
          | cons x l₂ =>
            cases (List.cons.inj hv).1
            exact absurd (by simp [hll]) hmem
      have hlatched : (w.step a).fine.Latched port pin := by
        refine (hkept port pin hl).resolve_right ?_
        rintro ⟨x, hx, hc⟩
        exact hfirst x (List.mem_append_left v₁ hx) hc
      refine ih h.2 hlatched (step_owed ho hlatched) ?_ fun y hy => hfirst y (List.mem_append_right l hy)
      rw [run_fine, hv, hv₁]

/-- An edge that is owed came for a wanted pin, and nothing has cleared it since. -/
theorem run_owed {acts : List Fine.Action} {bank : Word} {pin : Fin 32} (ho : (run acts).owed bank pin = true) :
    ∃ before port after u, acts = before ++ .edge port pin :: after ∧ intRegsAddr port = bank ∧
      (Fine.run before).Wanted port (BitVec.ofNat 32 pin) ∧ (Fine.run acts).log = (Fine.run before).log ++ u ∧
      ∀ y ∈ u, ¬ Fine.Clears port pin y := by
  induction acts using List.reverseRecOn with
  | nil => simp [run, init] at ho
  | append_singleton acts a ih =>
    have hrun : run (acts ++ [a]) = (run acts).step a := run_append step init acts [a]
    have hfine : Fine.run (acts ++ [a]) = (Fine.run acts).step a := run_append Fine.step Fine.init acts [a]
    have hbase : (run acts).fine = Fine.run acts := run_fine init acts
    rw [hrun] at ho
    simp only [step, hbase, Bool.and_eq_true, Bool.or_eq_true] at ho
    obtain ⟨hold | hnew, hl⟩ := ho
    · obtain ⟨before, port, after, u, rfl, rfl, hw, hu, hclear⟩ := ih hold
      obtain ⟨l, hlog, -, hgone, -⟩ := (Fine.run (before ++ .edge port pin :: after)).step_logs a
      refine ⟨before, port, after ++ [a], u ++ l, by simp, rfl, hw, by rw [hfine, hlog, hu, List.append_assoc], ?_⟩
      intro y hy
      rcases List.mem_append.mp hy with hy | hy
      · exact hclear y hy
      · exact fun hc => hgone port pin y hy hc hl
    · split at hnew
      · rename_i port pin'
        simp only [Bool.and_eq_true, beq_iff_eq, decide_eq_true_eq] at hnew
        obtain ⟨⟨hbank, rfl⟩, hw⟩ := hnew
        exact ⟨acts, port, [], [], rfl, hbank, hw, by rw [hfine, List.append_nil]; rfl, by simp⟩
      · cases hnew

end Owing

namespace Fine

private theorem served_of_spares {before after : List Action} {port : Word} {pin : Fin 32}
    (h : Along Owing.step Owing.Spares Owing.init (before ++ .edge port pin :: after))
    (wanted : (run before).Wanted port (BitVec.ofNat 32 pin)) :
    ∃ u, (run (before ++ .edge port pin :: after)).log = (run before).log ++ u ∧
      (run (before ++ .edge port pin :: after)).Served port pin u := by
  obtain ⟨u, hu, hs⟩ := edge_cleared_by before after port pin
  refine ⟨u, hu, hs.imp_right ?_⟩
  rintro ⟨u₁, x, u₂, hsplit, hfirst, hx⟩
  cases hx with
  | served port' pending bank pin_pending dispatch => exact ⟨u₁, port', pending, u₂, hsplit, hfirst, bank, pin_pending, dispatch⟩
  | discarded port' pin' bank same =>
    -- From the edge on it is owed, so no step discards it first.
    let w := (Owing.run before).step (.edge port pin)
    have hbefore : (Owing.run before).fine = run before := Owing.run_fine Owing.init before
    have hw : w.fine = (run before).step (.edge port pin) := congrArg (Fine.step · (.edge port pin)) hbefore
    have hl : w.fine.Latched port pin := hw ▸ latched_edge (run before) port pin
    have ho : w.owed (intRegsAddr port) pin = true := by
      have hlatched : ((w.fine).state.regs (intRegsAddr port)).status.getLsbD pin = true := hl
      have hwanted : (Owing.run before).fine.Wanted port (BitVec.ofNat 32 pin) := hbefore ▸ wanted
      simp only [w, Owing.step, beq_self_eq_true, Bool.true_and, decide_eq_true hwanted, Bool.or_true] at hlatched ⊢
      exact hlatched
    have hafter : Along Owing.step Owing.Spares w after := (along_append.mp h).2.2
    have hrun : (History.run Owing.step w after).fine = run (before ++ .edge port pin :: after) := by
      rw [Owing.run_fine, hw]
      exact (run_append step init before (.edge port pin :: after)).symm
    have hlog : (History.run Owing.step w after).fine.log = w.fine.log ++ (u₁ ++ .discarded port' pin' :: u₂) := by
      rw [hrun, hu, hsplit, hw]
      rfl
    exact absurd ⟨bank, same⟩ (Owing.run_spared hafter hl ho hlog hfirst)

private theorem spares_of_edgesServed {acts : List Action} {a : Action} (h : EdgesServed (acts ++ [a])) :
    (Owing.run acts).Spares a := by
  have hfine : run (acts ++ [a]) = (run acts).step a := run_append step init acts [a]
  have hbase : (Owing.run acts).fine = run acts := Owing.run_fine Owing.init acts
  cases a with
  | edge | waitForEdge | registerPinIsr | bankIsr => trivial
  | proceed =>
    cases hcore : (run acts).core with
    | unmasked | discarded | statusRead | pendingKnown | dispatching =>
      simp only [Owing.Spares, hbase, hcore, Owing.Spared]
    | configured port' pin' =>
      simp only [Owing.Spares, hbase, hcore, Owing.Spared]
      rintro i hi
      by_contra ho
      obtain ⟨before, port, after, u, rfl, hbank, hw, hu, hclear⟩ := Owing.run_owed (by simpa using ho)
      -- The discard is the first access to clear the edge, and no acknowledgement.
      have hlog : (run (before ++ .edge port i :: after ++ [.proceed])).log =
          (run before).log ++ (u ++ [.discarded port' pin']) := by
        rw [hfine, ← List.append_assoc, ← hu]
        simp [step, proceed, hcore]
      obtain ⟨v, hv, hs⟩ := h before port i (after ++ [.proceed]) (by simp) hw
      have hvu := List.append_cancel_left (hv.symm.trans hlog)
      rcases hs with hl | ⟨u₁, port'', pending, u₂, hsplit, -, hbank', hp, -⟩
      · refine absurd hl ?_
        rw [hfine]
        simp only [step, proceed, hcore]
        exact status_cleared hbank.symm ((getLsbD_bit pin' i).mpr ⟨i.isLt, hi.symm⟩)
      · have hmem : .acknowledged port'' pending ∈ u ++ [.discarded port' pin'] := by
          rw [← hvu, hsplit]
          simp
        rcases List.mem_append.mp hmem with hmem | hmem
        · exact hclear _ hmem ⟨hbank', hp⟩
        · simp at hmem

/-- A run keeps an edge for every wanted pin until a bank interrupt dispatches it,
at every point, exactly if each STATUS write of `enable_pin_interrupt` meets no
edge that came while the pin was enabled and registered. -/
theorem edges_served_iff (acts : List Action) :
    (∀ earlier later, acts = earlier ++ later → EdgesServed earlier) ↔ Along Owing.step Owing.Spares Owing.init acts := by
  constructor
  · intro h
    induction acts using List.reverseRecOn with
    | nil => trivial
    | append_singleton acts a ih =>
      refine along_append.mpr ⟨ih fun earlier later he => h earlier (later ++ [a]) (by simp [he]), ?_, trivial⟩
      exact spares_of_edgesServed (h _ [] (by simp))
  · rintro h earlier later rfl before port pin after rfl wanted
    exact served_of_spares (along_append.mp h).1 wanted

/-- A first waiter for pin 1 of bank L. -/
private def firstWaiter : List Action := [.waitForEdge 5 portL 1, .proceed, .proceed, .proceed]

/-- The edge for the first waiter is cleared by the wait of the second one,
before there has been any interrupt. -/
theorem edge_discarded_by_second_waiter :
    let s := run (firstWaiter ++ [.edge portL 1, .waitForEdge 6 portL 1, .proceed, .proceed, .proceed])
    (run firstWaiter).Wanted portL 1 ∧ (run (firstWaiter ++ [.edge portL 1])).Latched portL 1 ∧
      ¬ s.Latched portL 1 ∧ ∀ port pending, .acknowledged port pending ∉ s.log := by
  refine ⟨by decide, by decide, by decide, fun port pending h => ?_⟩
  simp [firstWaiter, run, History.run, step, proceed, init, Gpio.step, awaitSuspendPush, Gpio.init, updateRegs] at h

end Fine
end IoProcessor.Hal.Gpio
