import Mathlib.Data.List.Induction
import IoProcessor.Library.Memory

/-! A program whose run is interrupted. When every interruption keeps the
registers and stores only to data of its own and to scratch memory that the
program does not look at, it is to the program an update of that data at one
moment. -/
namespace IoProcessor.Library.Interrupted
open Memory
variable {ρ : Type*}

/-- The registers, the place in the code among them, and the memory. -/
structure State (ρ : Type*) where
  regs : ρ
  ram : Memory

/-- What the next instruction reads, and what it does with the bytes. -/
structure Program (ρ : Type*) where
  reads : ρ → List Word
  next : ρ → List Byte → ρ × List (Word × Byte)

def storeAll (m : Memory) (writes : List (Word × Byte)) : Memory := writes.foldl (fun m (a, v) => m.store8 a v) m

def Program.effect (p : Program ρ) (s : State ρ) : ρ × List (Word × Byte) :=
  p.next s.regs ((p.reads s.regs).map s.ram)

def Program.step (p : Program ρ) (s : State ρ) : State ρ := ⟨(p.effect s).1, storeAll s.ram (p.effect s).2⟩

/-- What interruptions may store to: their data at any time, and scratch memory
that depends on the registers; and when there is room for one. -/
structure Footprint (ρ : Type*) where
  data : Word → Bool
  scratch : ρ → Word → Bool
  ready : ρ → Prop

structure Interruption (f : Footprint ρ) where
  act : State ρ → Option (State ρ)
  returns : ∀ s, f.ready s.regs → ∃ ram, act s = some ⟨s.regs, ram⟩ ∧
    ∀ x, f.data x = false → f.scratch s.regs x = false → ram x = s.ram x

inductive Event (f : Footprint ρ) where
  | instruction
  | interruption (i : Interruption f)

def stepInterrupted {f : Footprint ρ} (p : Program ρ) (s : State ρ) : Event f → Option (State ρ)
  | .instruction => some (p.step s)
  | .interruption i => i.act s

/-- The run as the processor executes it. -/
def runInterrupted {f : Footprint ρ} (p : Program ρ) (s : State ρ) (events : List (Event f)) : Option (State ρ) :=
  events.foldlM (stepInterrupted p) s

/-- The run as the program sees it: the data changes at one moment. -/
inductive Moment where
  | instruction
  | update (values : Memory)

/-- A state with the addresses whose bytes an interruption may have left. -/
structure Seen (ρ : Type*) where
  state : State ρ
  junk : Word → Bool

def Seen.step (f : Footprint ρ) (p : Program ρ) (s : Seen ρ) : Moment → Seen ρ
  | .instruction =>
    { state := p.step s.state
      junk := fun x => s.junk x && !((p.effect s.state).2.any fun w => w.1 == x) }
  | .update values =>
    { state := { s.state with ram := fun x => if f.data x then values x else s.state.ram x }
      junk := fun x => s.junk x || (f.scratch s.state.regs x && !f.data x) }

def Seen.run (f : Footprint ρ) (p : Program ρ) (s : Seen ρ) (moments : List Moment) : Seen ρ :=
  moments.foldl (Seen.step f p) s

/-- A program that leaves room for interruptions and reads nothing that one of
them may have left, whatever their data holds. -/
structure Task (f : Footprint ρ) where
  program : Program ρ
  start : State ρ
  ready : ∀ moments, f.ready (Seen.run f program ⟨start, fun _ => false⟩ moments).state.regs
  reads_clean : ∀ moments, ∀ x ∈ program.reads (Seen.run f program ⟨start, fun _ => false⟩ moments).state.regs,
    (Seen.run f program ⟨start, fun _ => false⟩ moments).junk x = false

def Task.seen {f : Footprint ρ} (t : Task f) (moments : List Moment) : Seen ρ :=
  Seen.run f t.program ⟨t.start, fun _ => false⟩ moments

def Event.isInstruction {f : Footprint ρ} : Event f → Bool
  | .instruction => true
  | .interruption _ => false

def Moment.isInstruction : Moment → Bool
  | .instruction => true
  | .update _ => false

/-- Equal for the program. -/
structure Agrees (s : State ρ) (v : Seen ρ) : Prop where
  regs : s.regs = v.state.regs
  ram : ∀ x, v.junk x = false → s.ram x = v.state.ram x

theorem storeAll_agrees {m n : Memory} (writes : List (Word × Byte)) {x : Word}
    (h : m x = n x ∨ (writes.any fun w => w.1 == x) = true) : storeAll m writes x = storeAll n writes x := by
  induction writes generalizing m n with
  | nil =>
    rcases h with h | h
    · exact h
    · cases h
  | cons w writes ih =>
    refine ih ?_
    by_cases hx : w.1 = x
    · left
      change m.store8 w.1 w.2 x = n.store8 w.1 w.2 x
      rw [← hx, store8_self, store8_self]
    · rcases h with h | h
      · left
        change m.store8 w.1 w.2 x = n.store8 w.1 w.2 x
        rw [store8_ne m w.2 (Ne.symm hx), store8_ne n w.2 (Ne.symm hx), h]
      · right
        rw [List.any_cons, beq_false_of_ne hx, Bool.false_or] at h
        exact h

/-- An instruction that reads clean bytes does the same in both. -/
theorem Agrees.instruction {f : Footprint ρ} {p : Program ρ} {s : State ρ} {v : Seen ρ} (h : Agrees s v)
    (hclean : ∀ x ∈ p.reads v.state.regs, v.junk x = false) : Agrees (p.step s) (v.step f p .instruction) := by
  have heffect : p.effect s = p.effect v.state := by
    rw [Program.effect, Program.effect, h.regs, List.map_congr_left fun x hx => h.ram x (hclean x hx)]
  refine ⟨by rw [Program.step, heffect]; rfl, fun x hx => ?_⟩
  simp only [Seen.step, Program.step, heffect] at hx ⊢
  apply storeAll_agrees
  cases hj : v.junk x with
  | false => exact .inl (h.ram x hj)
  | true =>
    rw [hj, Bool.true_and, Bool.not_eq_false'] at hx
    exact .inr hx

/-- An interruption is an update of its data. -/
theorem Agrees.interruption {f : Footprint ρ} {p : Program ρ} {s : State ρ} {v : Seen ρ} (h : Agrees s v)
    (i : Interruption f) (hready : f.ready v.state.regs) :
    ∃ s' values, i.act s = some s' ∧ Agrees s' (v.step f p (.update values)) := by
  obtain ⟨ram, hact, hram⟩ := i.returns s (h.regs ▸ hready)
  refine ⟨_, ram, hact, h.regs, fun x hx => ?_⟩
  simp only [Seen.step, Bool.or_eq_false_iff, Bool.and_eq_false_iff, Bool.not_eq_false'] at hx ⊢
  obtain ⟨hjunk, hscratch⟩ := hx
  cases hd : f.data x with
  | true => rw [if_pos rfl]
  | false =>
    rw [if_neg Bool.false_ne_true]
    rcases hscratch with hscratch | hdata
    · rw [← h.ram x hjunk]
      exact hram x hd (h.regs ▸ hscratch)
    · rw [hd] at hdata
      cases hdata

/-- However often and wherever a task is interrupted, its run is one in which
each interruption is an update of the data at one moment. -/
theorem Task.runs_as_seen {f : Footprint ρ} (t : Task f) (events : List (Event f)) :
    ∃ s moments, runInterrupted t.program t.start events = some s ∧
      moments.map Moment.isInstruction = events.map Event.isInstruction ∧ Agrees s (t.seen moments) := by
  induction events using List.reverseRecOn with
  | nil => exact ⟨t.start, [], rfl, rfl, rfl, fun _ _ => rfl⟩
  | append_singleton events event ih =>
    obtain ⟨s, moments, hrun, hkinds, hagrees⟩ := ih
    have hrun' (s' : State ρ) (h : stepInterrupted t.program s event = some s') :
        runInterrupted t.program t.start (events ++ [event]) = some s' := by
      rw [runInterrupted] at hrun ⊢
      rw [List.foldlM_append, hrun]
      simpa using h
    have hseen (moment : Moment) : t.seen (moments ++ [moment]) = (t.seen moments).step f t.program moment := by
      rw [Task.seen, Seen.run, List.foldl_append]
      rfl
    cases event with
    | instruction =>
      refine ⟨t.program.step s, moments ++ [.instruction], hrun' _ rfl, ?_, ?_⟩
      · rw [List.map_append, List.map_append, hkinds]
        rfl
      · rw [hseen]
        exact hagrees.instruction (t.reads_clean moments)
    | interruption i =>
      obtain ⟨s', values, hact, hnext⟩ := hagrees.interruption (p := t.program) i (t.ready moments)
      refine ⟨s', moments ++ [.update values], hrun' _ hact, ?_, ?_⟩
      · rw [List.map_append, List.map_append, hkinds]
        rfl
      · rw [hseen]
        exact hnext

end IoProcessor.Library.Interrupted
