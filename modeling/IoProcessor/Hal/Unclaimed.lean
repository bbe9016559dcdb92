import IoProcessor.Hal.Clic
import IoProcessor.Hal.TrapHandler

/-! The lines that no driver claims. The trap handler disables such a line, so
that it traps at most once for each time it is enabled. -/
namespace IoProcessor.Hal.Unclaimed
open Library Memory MemoryMap History Clic

/-- `riscv_trap_handler` gives this cause to the timer, and never to
`dispatch_external`. -/
def machineTimerInterruptCause : Word := 7

/-- The cases of `dispatch_external`. -/
def dispatched (irq : Word) : Bool :=
  [ClicIrq.gpioLS, .gpioLNS, .gpioMS, .gpioMNS, .riscvMsgbox, .cpusMsgboxRiscv, .sUart0, .sUart1, .sTwi0, .sTwi1,
    .sTwi2, .sSpi, .gicGroup48_55].any fun source => source.number == irq

/-- The interrupts that have a handler. -/
def claimed (irq : Word) : Bool := irq == machineTimerInterruptCause || dispatched irq

/-- A step of a call, a source of the hardware, or an interrupt that is taken. -/
inductive Event where
  | clic (a : Clic.Action)
  | trap (irq : Word)
  deriving DecidableEq, Repr

/-- The trap of an unclaimed line begins to disable it; the store is a step of
its own. -/
def step (s : Clic.State) : Event → Clic.State
  | .clic a => Clic.step s a
  | .trap irq => if claimed irq then s else disable s irq

def isEnabled (m : Memory) (irq : Word) : Bool := ((controller m).line irq).any (·.enabled)

/-- The core takes an interrupt only outside the calls, which mask it, and only
from a line that is enabled and pending. -/
def Taken (s : Clic.State) : Event → Prop
  | .clic _ => True
  | .trap irq => s.held.isNone ∧ isEnabled s.mem irq = true ∧ isPending s.mem irq = true

instance (s : Clic.State) (e : Event) : Decidable (Taken s e) :=
  match e with
  | .clic _ => .isTrue trivial
  | .trap _ => inferInstanceAs (Decidable (_ ∧ _))

def Event.isTrap (irq : Word) : Event → Bool
  | .clic _ => false
  | .trap other => other == irq

def Event.isEnable (irq : Word) : Event → Bool
  | .clic (.enable other ..) => other == irq
  | _ => false

/-- The register of each line, as the firmware has them. -/
def Mirrors (f : TrapHandler.Firmware) (m : Memory) : Prop :=
  ∀ irq < maxInterrupts, f.clic irq = m.load32 (reg (intOffset irq))

section
variable {m : Memory} {irq : Word}

/-- `dispatch_external` touches the registers of the lines in its default case
only. -/
theorem dispatchExternal_clic (f : TrapHandler.Firmware) (n : Word) :
    (TrapHandler.dispatchExternal f n).clic = if dispatched n then f.clic else (TrapHandler.clicDisable f n).clic := by
  have hkept {g : TrapHandler.Firmware} (hc : dispatched n = true) (hg : g.clic = f.clic) :
      g.clic = if dispatched n then f.clic else (TrapHandler.clicDisable f n).clic := by rw [if_pos hc, hg]
  unfold TrapHandler.dispatchExternal
  split
  · rename_i h
    exact hkept (by rcases h with rfl | rfl <;> rfl) rfl
  split
  · rename_i h
    exact hkept (by rcases h with rfl | rfl <;> rfl) rfl
  split
  · rename_i h
    exact hkept (by rcases h with rfl | rfl <;> rfl) rfl
  split
  · rename_i h
    exact hkept (by rcases h with rfl | rfl <;> rfl) rfl
  split
  · rename_i h
    exact hkept (by rw [h]; rfl) rfl
  split
  · rename_i h
    exact hkept (by rw [h]; rfl) rfl
  split
  · rename_i h
    exact hkept (by rw [h]; rfl) rfl
  split
  · rename_i h
    exact hkept (by rw [h]; rfl) rfl
  split
  · rename_i h
    exact hkept (by rw [h]; rfl) rfl
  · have hc : dispatched n = false := by
      simp only [dispatched, List.any_cons, List.any_nil, Bool.or_false, Bool.or_eq_false_iff, beq_eq_false_iff_ne]
      grind
    rw [hc]
    rfl

/-- Of the forwarded GIC interrupts only those of the group of the SPI controllers
reach a driver. -/
theorem forwarded_claimed_iff {gicIrq : Word} (h : 32 ≤ gicIrq) :
    claimed (SharedGicGroup.clicIrqForGicIrq gicIrq) = true ↔ 48 ≤ gicIrq ∧ gicIrq < 56 := by
  have hle : 32 ≤ gicIrq.toNat := h
  have hlt := gicIrq.isLt
  have hgroup : ((gicIrq - 32) / 8).toNat = (gicIrq.toNat - 32) / 8 := by
    rw [BitVec.toNat_udiv, BitVec.toNat_sub_of_le h]
    rfl
  have hline : (SharedGicGroup.clicIrqForGicIrq gicIrq).toNat = 90 + (gicIrq.toNat - 32) / 8 := by
    rw [SharedGicGroup.clicIrqForGicIrq, BitVec.toNat_add, hgroup, show (90 : Word).toNat = 90 from rfl]
    omega
  simp only [claimed, machineTimerInterruptCause, dispatched, List.any_cons, List.any_nil, Bool.or_false,
    Bool.or_eq_true, beq_iff_eq, ClicIrq.number, ← BitVec.toNat_inj, hline, BitVec.le_def, BitVec.lt_def, BitVec.ofNat_eq_ofNat, BitVec.toNat_ofNat]
  omega

/-- A trap, with its store, does to the lines what `dispatch_external` does. -/
theorem dispatchExternal_mirrors {f : TrapHandler.Firmware} (h : Mirrors f m) {n : Word}
    (external : n ≠ machineTimerInterruptCause) :
    Mirrors (TrapHandler.dispatchExternal f n) (Clic.store (step ⟨m, none⟩ (.trap n))).mem := by
  have hclaimed : claimed n = dispatched n := by simp [claimed, external]
  intro irq hirq
  rw [dispatchExternal_clic, step, hclaimed]
  split
  · exact h irq hirq
  · rw [TrapHandler.clicDisable, disable, load]
    by_cases hn : n ≥ maxInterrupts
    · rw [dif_pos hn, if_pos (show n ≥ TrapHandler.maxInterrupts from hn)]
      exact h irq hirq
    · have hlt : n < maxInterrupts := BitVec.not_le.mp hn
      rw [dif_neg hn, if_neg (show ¬ n ≥ TrapHandler.maxInterrupts from hn)]
      simp only [Clic.store]
      rw [load32_store32_of_aligned m _ (aligned_intReg hlt) (aligned_intReg hirq)]
      rw [Function.update_apply, h n hlt, h irq hirq]
      by_cases he : irq = n
      · subst he
        rw [if_pos rfl, if_pos rfl]
        rfl
      · rw [if_neg he, if_neg fun hr => he (intReg_injective hirq hlt hr)]

end

/-- Whether a line is enabled once the call under way has ended. -/
def enabledAfter (t : Table) (irq : Word) : Bool := (t.store.controller.line irq).any (·.enabled)

section
variable {irq : Word} (t : Table)

private theorem setLine_other (c : Controller) {irq other : Word} (h : irq ≠ other) (g : Line → Line) :
    (c.setLine other g).line irq = c.line irq := (c.setLine_line other irq g).trans (if_neg h)

/-- A change that enables no line. -/
private theorem setLine_keeps (c : Controller) (irq other : Word) {g : Line → Line}
    (hg : ∀ l, (g l).enabled = true → l.enabled = true) :
    ((c.setLine other g).line irq).any (·.enabled) = true → (c.line irq).any (·.enabled) = true := by
  rw [Controller.setLine_line]
  split
  · rename_i h
    rw [← h]
    cases c.line irq with
    | none => exact id
    | some l => exact hg l
  · exact id

/-- The load of a call, where none is under way, settles what its store makes of
the line. -/
theorem enabledAfter_load (other : Word) (f : Line → Line) (irq : Word) :
    enabledAfter (t.load other f) irq =
      if t.held.isSome then enabledAfter t irq else ((t.controller.setLine other f).line irq).any (·.enabled) := by
  obtain ⟨c, held⟩ := t
  cases held with
  | some h => rfl
  | none =>
    cases hline : c.line other with
    | none => simp [enabledAfter, Table.load, Table.store, hline, setLine_none hline]
    | some l => simp [enabledAfter, Table.load, Table.store, hline, Controller.setLine]

private theorem enabledAfter_idle (hidle : t.held = none) (irq : Word) :
    enabledAfter t irq = (t.controller.line irq).any (·.enabled) := by
  rw [enabledAfter, Table.store, hidle]

private theorem load_keeps {other : Word} {f : Line → Line}
    (hf : irq = other → ∀ l, (f l).enabled = true → l.enabled = true)
    (h : enabledAfter (t.load other f) irq = true) : enabledAfter t irq = true := by
  rw [enabledAfter_load] at h
  split at h
  · exact h
  · rename_i hidle
    rw [enabledAfter_idle t (by simpa using hidle)]
    by_cases he : irq = other
    · exact setLine_keeps _ irq other (hf he) h
    · rwa [setLine_other _ he] at h

private theorem atomically_keeps (call : Controller → Controller) (hcall : ∀ c : Controller, (call c).line = c.line)
    (irq : Word) : enabledAfter (t.atomically call) irq = enabledAfter t irq := by
  unfold Table.atomically
  split
  · rfl
  · rename_i hidle
    have hnone : t.held = none := by simpa using hidle
    simp only [enabledAfter, Table.store, hnone, hcall]

/-- A call enables the line that it names, and no other call enables one. -/
theorem enabledAfter_step (a : Clic.Action) (h : enabledAfter (t.step a) irq = true) :
    (Event.clic a).isEnable irq = true ∨ enabledAfter t irq = true := by
  cases a with
  | initGlobal =>
    exact .inr (atomically_keeps t (fun c => { c with config := 0, threshold := 0 }) (fun _ => rfl) irq ▸ h)
  | enableForGicIrq gicIrq => exact .inr (atomically_keeps t (·.setForwarded gicIrq true) (fun _ => rfl) irq ▸ h)
  | disableForGicIrq gicIrq => exact .inr (atomically_keeps t (·.setForwarded gicIrq false) (fun _ => rfl) irq ▸ h)
  | enable other priority trigger hardwareVectored =>
    by_cases he : irq = other
    · exact .inl (beq_iff_eq.mpr he.symm)
    · exact .inr (load_keeps t (fun hirq => absurd hirq he) h)
  | disable other => exact .inr (load_keeps t (fun _ _ h => absurd h Bool.false_ne_true) h)
  | clearPending other => exact .inr (load_keeps t (f := fun l => { l with pending := false }) (fun _ _ h => h) h)
  | store =>
    obtain ⟨c, held⟩ := t
    right
    cases held <;> exact h
  | source other pending =>
    right
    obtain ⟨c, held⟩ := t
    let noted (l : Line) : Line := { l with pending := pending }
    cases held with
    | none => exact setLine_keeps (g := noted) c irq other (fun _ h => h) h
    | some held =>
      -- The line that is held is put back as it is.
      obtain ⟨own, l⟩ := held
      simp only [enabledAfter, Table.step, Table.store] at h ⊢
      rw [Controller.setLine_line] at h ⊢
      split
      · rename_i hown
        rw [if_pos hown, Controller.setLine_line] at h
        split at h
        · rename_i hother
          rw [hother]
          cases hline : c.line other with
          | none => simp [hline] at h
          | some _ => simpa [hline] using h
        · exact h
      · rename_i hown
        rw [if_neg hown] at h
        exact setLine_keeps (g := noted) c irq other (fun _ h => h) h

end

section
variable {s : Clic.State} {irq : Word}

/-- What a step of the system can add: a trap is paid for by an enabled line, and
an enabled line by a call. -/
theorem step_pays (hunclaimed : claimed irq = false) {e : Event} (h : Taken s e) :
    (e.isTrap irq).toNat + (enabledAfter (table (step s e)) irq).toNat ≤
      (e.isEnable irq).toNat + (enabledAfter (table s) irq).toNat := by
  cases e with
  | clic a =>
    change 0 + (enabledAfter (table (Clic.step s a)) irq).toNat ≤ _
    rw [table_step]
    cases hafter : enabledAfter ((table s).step a) irq with
    | false => exact Nat.zero_le _
    | true =>
      rcases enabledAfter_step (table s) a hafter with he | he
      · simp [he]
      · simp [he]
  | trap other =>
    obtain ⟨hidle, henabled, -⟩ := h
    have hheld : (table s).held = none := by simpa [table] using hidle
    have hdisable : table (disable s other) = (table s).step (.disable other) := table_step s (.disable other)
    change (other == irq).toNat + (enabledAfter (table (if claimed other then s else disable s other)) irq).toNat ≤ 0 + _
    by_cases he : irq = other
    · subst he
      have hoff : enabledAfter (table (disable s irq)) irq = false := by
        rw [hdisable, Table.step, enabledAfter_load, hheld, Option.isSome_none, if_neg Bool.false_ne_true,
          Controller.setLine_line, if_pos rfl]
        cases (table s).controller.line irq <;> rfl
      have hon : enabledAfter (table s) irq = true := (enabledAfter_idle (table s) hheld irq).trans henabled
      rw [hunclaimed, if_neg Bool.false_ne_true, hoff, hon, beq_self_eq_true]
      exact le_rfl
    · rw [beq_false_of_ne (Ne.symm he)]
      split
      · exact le_rfl
      · rw [hdisable]
        cases hafter : enabledAfter ((table s).step (.disable other)) irq with
        | false => exact Nat.zero_le _
        | true =>
          rw [(enabledAfter_step (table s) (.disable other) hafter).resolve_left Bool.false_ne_true]
          exact le_rfl

/-- In every run a line's traps are paid for by its enabling calls. -/
theorem run_pays (hunclaimed : claimed irq = false) {events : List Event} (h : Along step Taken s events) :
    events.countP (Event.isTrap irq) ≤ events.countP (Event.isEnable irq) + (enabledAfter (table s) irq).toNat := by
  induction events generalizing s with
  | nil => exact Nat.zero_le _
  | cons e events ih =>
    have hpay := step_pays hunclaimed h.1
    have hrest := ih h.2
    rw [List.countP_cons, List.countP_cons]
    have hcond (b : Bool) : (if b = true then 1 else 0) = b.toNat := by cases b <;> rfl
    rw [hcond, hcond]
    omega

/-- A line without a driver traps at most as often as it is enabled, whatever
its source does: the handler breaks the storm at its first interrupt. -/
theorem unclaimed_traps_le {m : Memory} (hunclaimed : claimed irq = false) {events : List Event}
    (h : Along step Taken ⟨m, none⟩ events) :
    events.countP (Event.isTrap irq) ≤ events.countP (Event.isEnable irq) + (isEnabled m irq).toNat :=
  run_pays hunclaimed h

/-- A line of a device without a driver, which keeps its interrupt pending, also
between the load and the store that disable it. -/
def noisy : List Event :=
  [.clic (.enable 37 1 .level false), .clic .store, .clic (.source 37 true), .trap 37, .clic (.source 37 true),
    .clic .store, .clic (.source 37 true), .clic (.enable 66 1 .level false), .clic .store, .clic (.source 66 true),
    .trap 66]

theorem noisy_traps_once :
    noisy.countP (Event.isTrap 37) ≤ noisy.countP (Event.isEnable 37) + (isEnabled (fun _ => 0) 37).toNat :=
  unclaimed_traps_le (by decide) (by decide +kernel)

end
end IoProcessor.Hal.Unclaimed
