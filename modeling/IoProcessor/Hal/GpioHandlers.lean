import IoProcessor.Library.SlotTable
import IoProcessor.Hal.GpioWaiters

/-! The table of pin handlers as a map from pins to callbacks. -/
namespace IoProcessor.Hal.Gpio
open Library MemoryMap History

/-- What a slot holds: a callback and its context under a pin. -/
def PinHandler.entry (slot : PinHandler) : Option ((Word × Word) × Nat × Nat) :=
  slot.callback.map fun callback => ((slot.port, slot.pin), callback, slot.context)

def State.table (s : State) : SlotTable (Word × Word) (Nat × Nat) := s.handlers.map PinHandler.entry

/-- The pins of the slots that are taken, in slot order. -/
def State.takenPins (s : State) : List (Word × Word) :=
  (s.handlers.filter (·.callback ≠ none)).map fun slot => (slot.port, slot.pin)

theorem keys_table (s : State) : SlotTable.keys s.table = s.takenPins := by
  unfold State.table State.takenPins
  induction s.handlers with
  | nil => rfl
  | cons slot rest ih =>
    obtain ⟨callback, context, port, pin⟩ := slot
    cases callback with
    | none => simpa [PinHandler.entry] using ih
    | some callback => simpa [PinHandler.entry] using ih

/-- The first slot that is free or has the pin is claimed. -/
theorem claimSlot_entry (port pin : Word) (callback context : Nat) (handlers : List PinHandler) :
    (claimSlot port pin (some callback) context handlers).map (·.map PinHandler.entry) =
      SlotTable.claim (port, pin) (callback, context) (handlers.map PinHandler.entry) := by
  induction handlers with
  | nil => rfl
  | cons slot rest ih =>
    obtain ⟨taken, c, p, q⟩ := slot
    cases taken with
    | none => simp [claimSlot, PinHandler.entry, SlotTable.claim]
    | some cb =>
      rw [claimSlot, List.map_cons, PinHandler.entry, Option.map_some, SlotTable.claim]
      by_cases hp : p = port ∧ q = pin
      · rw [if_pos (Prod.ext hp.1 hp.2), if_neg (by simp [hp.1, hp.2])]
        rfl
      · have hne : ¬ (p, q) = (port, pin) := fun he => hp (Prod.mk.inj he)
        have hor : p ≠ port ∨ q ≠ pin := not_and_or.mp hp
        rw [if_neg hne, if_pos ⟨by simp, hor⟩, ← ih, Option.map_map, Option.map_map]
        rfl

theorem clearSlots_table (s : State) (port pin : Word) :
    (clearSlots s port pin).table = SlotTable.clear (port, pin) s.table := by
  simp only [State.table, clearSlots, SlotTable.clear, List.map_map]
  apply List.map_congr_left
  intro slot _
  obtain ⟨taken, c, p, q⟩ := slot
  cases taken with
  | none => rfl
  | some cb =>
    by_cases hp : p = port ∧ q = pin
    · simp [PinHandler.entry, hp.1, hp.2, Option.filter]
    · have hne : ¬ (p, q) = (port, pin) := fun he => hp (Prod.mk.inj he)
      simp [PinHandler.entry, hp, hne, Option.filter]

/-- The calls of pin handlers. -/
def calls (t : List Event) : List (Nat × Nat × Word × Word) :=
  t.filterMap fun | .called callback context port pin => some (callback, context, port, pin) | _ => none

theorem calls_callHandler (s : State) (port pin : Word) :
    calls (callHandler s port pin).trace =
      calls s.trace ++ ((SlotTable.lookup (port, pin) s.table).map fun e => (e.1, e.2, port, pin)).toList := by
  have hfind : (s.handlers.find? fun slot => slot.callback ≠ none ∧ slot.port = port ∧ slot.pin = pin).bind
      (fun slot => slot.callback.map fun callback => (callback, slot.context)) =
        SlotTable.lookup (port, pin) s.table := by
    unfold State.table
    induction s.handlers with
    | nil => rfl
    | cons slot rest ih =>
      obtain ⟨taken, c, p, q⟩ := slot
      cases taken with
      | none => simpa [PinHandler.entry, SlotTable.lookup] using ih
      | some cb =>
        by_cases hp : p = port ∧ q = pin
        · simp [PinHandler.entry, SlotTable.lookup, hp.1, hp.2]
        · have hne : ¬ (p, q) = (port, pin) := fun he => hp (Prod.mk.inj he)
          simpa [PinHandler.entry, SlotTable.lookup, hp, hne] using ih
  rw [← hfind]
  unfold callHandler
  cases hs : s.handlers.find? fun slot => slot.callback ≠ none ∧ slot.port = port ∧ slot.pin = pin with
  | none => simp
  | some slot =>
    cases hc : slot.callback with
    | none => simp [hc]
    | some callback => simp [hc, calls]

/-- An event of a pin calls what the table has for it, and nothing else. -/
theorem calls_dispatchPinEvent (s : State) (port pin : Word) :
    calls (dispatchPinEvent s port pin).trace =
      calls s.trace ++ ((SlotTable.lookup (port, pin) s.table).map fun e => (e.1, e.2, port, pin)).toList := by
  have hposts (o : Option Coro) : calls (o.map Event.posted).toList = [] := by cases o <;> rfl
  have hsplit (t u : List Event) : calls (t ++ u) = calls t ++ calls u := List.filterMap_append
  rw [← calls_callHandler, dispatchPinEvent, (serveQueue_spec port pin _ _).2, hsplit, hposts, List.append_nil]

theorem serveQueue_handlers (port pin : Word) (n : Nat) (s : State) : (serveQueue port pin n s).handlers = s.handlers := by
  induction n generalizing s with
  | zero => rfl
  | succ n ih =>
    unfold serveQueue
    rcases s.pending.pop_cases with ⟨hp, -⟩ | ⟨req, q, hp, -⟩
    · rw [hp]
    · rw [hp]
      simp only
      split
      · rfl
      · exact ih _

theorem callHandler_handlers (s : State) (port pin : Word) : (callHandler s port pin).handlers = s.handlers := by
  unfold callHandler
  split
  · split <;> rfl
  · rfl

theorem dispatchPinEvent_handlers (s : State) (port pin : Word) :
    (dispatchPinEvent s port pin).handlers = s.handlers := by
  rw [dispatchPinEvent, serveQueue_handlers, callHandler_handlers]

theorem servePins_handlers (port : Word) (n : Nat) (pending : Word) (s : State) :
    (servePins port n pending s).handlers = s.handlers := by
  induction n generalizing pending s with
  | zero => rfl
  | succ n ih =>
    unfold servePins
    split
    · rfl
    · rw [ih, dispatchPinEvent_handlers]

/-- The driver with the map that the calls describe: a registration that returns
true adds its pin, and the end of an unregistration takes it out. -/
structure Registry where
  state : State
  registered : Word × Word → Option (Nat × Nat)

namespace Registry

def step (r : Registry) (a : Action) : Registry where
  state := Gpio.step r.state a
  registered := match a, r.state.pc with
    | .registerPinIsr port pin callback context trigger, .outside =>
      if (registerPinIsr r.state port pin callback context trigger).1 then
        Function.update r.registered (port, pin) (callback.map (·, context))
      else r.registered
    | .proceed, .clearing port pin => Function.update r.registered (port, pin) none
    | _, _ => r.registered

def init : Registry := ⟨Gpio.init, fun _ => none⟩

abbrev run (acts : List Action) : Registry := History.run step init acts

/-- Callbacks are functions. -/
def NonNull : Action → Prop
  | .registerPinIsr _ _ callback _ _ => callback ≠ none
  | _ => True

instance : (a : Action) → Decidable (NonNull a)
  | .registerPinIsr _ _ callback _ _ => inferInstanceAs (Decidable (callback ≠ none))
  | .waitForEdge _ _ _ | .unregisterPinIsr _ _ | .proceed | .edge _ _ | .bankIsr _ | .isr _ _ => .isTrue trivial

/-- A pin that has a slot is not registered again behind a free slot. -/
def NoHole (s : State) : Action → Prop
  | .registerPinIsr port pin _ _ _ => s.pc = .outside → ¬ SlotTable.HoleBefore (port, pin) s.table
  | _ => True

instance (s : State) : (a : Action) → Decidable (NoHole s a)
  | .registerPinIsr port pin _ _ _ =>
    inferInstanceAs (Decidable (s.pc = .outside → ¬ SlotTable.HoleBefore (port, pin) s.table))
  | .waitForEdge _ _ _ | .unregisterPinIsr _ _ | .proceed | .edge _ _ | .bankIsr _ | .isr _ _ => .isTrue trivial

/-- The table is a map of eight pins: a pin has one slot at most, a registration
returns true for a pin of the map and while the map has room, one that returns
false leaves the table, and an event calls what the map has for its pin. -/
structure IsMap (r : Registry) : Prop where
  unique : r.state.takenPins.Nodup
  accepts : ∀ port pin callback context trigger,
    (registerPinIsr r.state port pin (some callback) context trigger).1 = true ↔
      r.registered (port, pin) ≠ none ∨ {p | r.registered p ≠ none}.ncard < maxPinHandlers
  refuses : ∀ port pin callback context trigger,
    (registerPinIsr r.state port pin (some callback) context trigger).1 = false →
      (registerPinIsr r.state port pin (some callback) context trigger).2.handlers = r.state.handlers
  dispatches : ∀ port pin, calls (dispatchPinEvent r.state port pin).trace =
    calls r.state.trace ++ ((r.registered (port, pin)).map fun e => (e.1, e.2, port, pin)).toList

structure Inv (r : Registry) : Prop where
  nodup : (SlotTable.keys r.state.table).Nodup
  length : r.state.table.length = maxPinHandlers
  lookup : ∀ p, SlotTable.lookup p r.state.table = r.registered p

variable {r : Registry}

theorem registerPinIsr_fst (s : State) (port pin : Word) (callback context : Nat) (trigger : IntTrigger) :
    (registerPinIsr s port pin (some callback) context trigger).1 =
      (SlotTable.claim (port, pin) (callback, context) s.table).isSome := by
  rw [State.table, ← claimSlot_entry, Option.isSome_map, registerPinIsr]
  cases claimSlot port pin (some callback) context s.handlers <;> rfl

theorem Inv.isMap (h : Inv r) : IsMap r where
  unique := keys_table r.state ▸ h.nodup
  accepts port pin callback context trigger := by
    rw [registerPinIsr_fst, SlotTable.claim_accepts_iff h.nodup, h.length]
    simp only [h.lookup]
  refuses port pin callback context trigger := by
    unfold registerPinIsr
    cases claimSlot port pin (some callback) context r.state.handlers with
    | none => exact fun _ => rfl
    | some handlers => exact fun hf => absurd hf (by simp)
  dispatches port pin := by rw [calls_dispatchPinEvent, h.lookup]

theorem Inv.init : Inv init where
  nodup := by decide
  length := by decide
  lookup _ := rfl

/-- A step that leaves the handlers leaves the map. -/
theorem Inv.of_handlers (h : Inv r) {t : Registry} (hh : t.state.handlers = r.state.handlers)
    (hr : t.registered = r.registered) : Inv t := by
  have ht : t.state.table = r.state.table := congrArg (List.map PinHandler.entry) hh
  refine ⟨?_, ?_, ?_⟩
  · rw [ht]
    exact h.nodup
  · rw [ht]
    exact h.length
  · intro p
    rw [ht, hr]
    exact h.lookup p

theorem Inv.register (h : Inv r) {port pin : Word} {callback context : Nat} {trigger : IntTrigger}
    (hhole : NoHole r.state (.registerPinIsr port pin (some callback) context trigger)) :
    Inv (r.step (.registerPinIsr port pin (some callback) context trigger)) := by
  by_cases hpc : r.state.pc = .outside
  · have hentry := claimSlot_entry port pin callback context r.state.handlers
    cases hc : claimSlot port pin (some callback) context r.state.handlers with
    | none =>
      have hreg : registerPinIsr r.state port pin (some callback) context trigger = (false, r.state) := by
        rw [registerPinIsr, hc]
      simp only [step, Gpio.step, hpc, if_true, hreg]
      exact h.of_handlers rfl (by simp)
    | some handlers =>
      have hreg : registerPinIsr r.state port pin (some callback) context trigger =
          (true, { r.state with handlers := handlers, pc := .enabling port pin trigger }) := by
        rw [registerPinIsr, hc]
      rw [hc, Option.map_some] at hentry
      simp only [step, Gpio.step, hpc, if_true, hreg]
      refine ⟨?_, ?_, ?_⟩
      · exact (SlotTable.nodup_keys_claim h.nodup hentry.symm).mpr (hhole hpc)
      · exact (SlotTable.length_claim hentry.symm).trans h.length
      · intro p
        refine (SlotTable.lookup_claim hentry.symm p).trans ?_
        have hl : (fun p => SlotTable.lookup p r.state.table) = r.registered := funext h.lookup
        rw [← hl]
        rfl
  · refine h.of_handlers ?_ ?_
    · simp [step, Gpio.step, hpc]
    · cases hp : r.state.pc with
      | outside => exact absurd hp hpc
      | enabling port pin trigger => simp [step, hp]
      | clearing port pin => simp [step, hp]

theorem Inv.proceed (h : Inv r) : Inv (r.step .proceed) := by
  simp only [step, Gpio.step]
  cases hp : r.state.pc with
  | outside => exact h.of_handlers rfl rfl
  | enabling port pin trigger => exact h.of_handlers rfl rfl
  | clearing port pin =>
    have ht := clearSlots_table r.state port pin
    refine ⟨?_, ?_, ?_⟩
    · simp only [State.table] at ht ⊢
      rw [ht, SlotTable.keys_clear]
      exact h.nodup.filter _
    · simp only [State.table] at ht ⊢
      rw [ht, SlotTable.clear, List.length_map]
      exact h.length
    · intro p
      simp only [State.table] at ht ⊢
      rw [ht, SlotTable.lookup_clear]
      have hl : (fun p => SlotTable.lookup p r.state.table) = r.registered := funext h.lookup
      rw [← hl]
      rfl

theorem Inv.step (h : Inv r) {a : Action} (hn : NonNull a) (hhole : NoHole r.state a) : Inv (r.step a) := by
  cases a with
  | registerPinIsr port pin callback context trigger =>
    obtain ⟨cb, rfl⟩ := Option.ne_none_iff_exists'.mp hn
    exact h.register hhole
  | proceed => exact h.proceed
  | waitForEdge c port pin =>
    refine h.of_handlers ?_ (by simp [Registry.step])
    simp only [Registry.step, Gpio.step]
    split <;> rfl
  | unregisterPinIsr port pin =>
    refine h.of_handlers ?_ (by simp [Registry.step])
    simp only [Registry.step, Gpio.step]
    split <;> rfl
  | edge port pin => exact h.of_handlers rfl (by simp [Registry.step])
  | bankIsr port =>
    refine h.of_handlers ?_ (by simp [Registry.step])
    simp only [Registry.step, Gpio.step, handleBankIsr]
    split
    · rfl
    · rw [servePins_handlers]
      rfl
  | isr port pin =>
    refine h.of_handlers ?_ (by simp [Registry.step])
    simp only [Registry.step, Gpio.step, handleIsr]
    rw [dispatchPinEvent_handlers]
    rfl

/-- The table is a map in every run that registers no pin again behind a free
slot. -/
theorem handlers_form_map (acts : List Action)
    (h : Along step (fun r a => NonNull a ∧ NoHole r.state a) init acts) : IsMap (run acts) := by
  have keep (r : Registry) (a : Action) (hr : Inv r) (ha : NonNull a ∧ NoHole r.state a) : Inv (r.step a) :=
    hr.step ha.1 ha.2
  exact (run_invariant_along keep .init h).isMap

/-- Two pins, then the first one again with another callback. -/
private def again : List Action :=
  [.registerPinIsr portL 3 (some 100) 7 .risingEdge, .proceed, .registerPinIsr portM 4 (some 200) 8 .risingEdge,
    .proceed, .registerPinIsr portL 3 (some 300) 9 .risingEdge, .proceed]

theorem handlers_form_map_again :
    (run again).registered (portL, 3) = some (300, 9) ∧ IsMap (run again) :=
  ⟨by decide, handlers_form_map again (by decide)⟩

/-- The first pin is taken out, and the second registered again. -/
private def behindHole : List Action :=
  [.registerPinIsr portL 3 (some 100) 7 .risingEdge, .proceed, .registerPinIsr portM 4 (some 200) 8 .risingEdge,
    .proceed, .unregisterPinIsr portL 3, .proceed, .registerPinIsr portM 4 (some 300) 9 .risingEdge, .proceed]

theorem pin_takes_two_slots :
    (∀ a ∈ behindHole, NonNull a) ∧ (run behindHole).state.takenPins = [(portM, 4), (portM, 4)] ∧
      ¬ IsMap (run behindHole) := by
  have htwo : (run behindHole).state.takenPins = [(portM, 4), (portM, 4)] := by decide
  refine ⟨by decide, htwo, ?_⟩
  intro h
  have hn := h.unique
  rw [htwo] at hn
  revert hn
  decide

end Registry
end IoProcessor.Hal.Gpio
