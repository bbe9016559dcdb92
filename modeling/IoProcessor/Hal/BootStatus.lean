import Mathlib.Data.Fin.VecNotation
import Mathlib.Data.Finset.Max
import Mathlib.Data.Fintype.Pi
import Mathlib.Logic.Function.Basic
import IoProcessor.Hal.MemoryMap

/-! The boot and crash status record: its words, its validity test and its
publication, with what Linux can see between two of the stores. -/
namespace IoProcessor.Hal.Boot
open Library MemoryMap

def bootStatusMagic : Word := 0x544F4F42
def bootStatusAbiVersion : Word := 1
def statusSize : Word := 64

inductive BootState where
  | reset | initializing | ready | initFailed | crashed
  deriving DecidableEq, Repr

def BootState.toWord : BootState → Word
  | .reset => 0 | .initializing => 1 | .ready => 2 | .initFailed => 3 | .crashed => 4

inductive FailureReason where
  | none | clockConfigurationInvalid | timerConfigurationInvalid | unexpectedTrap
  | timerCounterNotAdvancing | timerInterruptNotObserved
  deriving DecidableEq, Repr

def FailureReason.toWord : FailureReason → Word
  | .none => 0 | .clockConfigurationInvalid => 1 | .timerConfigurationInvalid => 2 | .unexpectedTrap => 3
  | .timerCounterNotAdvancing => 4 | .timerInterruptNotObserved => 5

/-- A status record, as the sixteen words it is copied by. -/
abbrev Status := Fin 16 → Word

namespace Status

def magic (s : Status) : Word := s 0
def abiVersion (s : Status) : Word := s 1
def sizeBytes (s : Status) : Word := s 2
def generation (s : Status) : Word := s 3
def state (s : Status) : Word := s 4

def isValid (s : Status) : Bool :=
  s.magic == bootStatusMagic && s.abiVersion == bootStatusAbiVersion && s.sizeBytes == statusSize &&
    s.generation != 0 && decide (s.state ≤ BootState.crashed.toWord)

end Status

def makeStatus (state : BootState) (failureReason : FailureReason)
    (generation clockConfigurationGeneration riscvCoreHz : Word) : Status :=
  ![bootStatusMagic, bootStatusAbiVersion, statusSize, generation, state.toWord, failureReason.toWord,
    clockConfigurationGeneration, riscvCoreHz, 0, 0, 0, 0, 0, 0, 0, 0]

/-- The record that `riscv_trap_handler` publishes. -/
def crashStatus (coreHz mcause mepc mtval : Word) : Status :=
  let status := makeStatus .crashed .unexpectedTrap 1 0 coreHz
  Function.update (Function.update (Function.update status 8 mcause) 9 mepc) 10 mtval

def statusWordAddr (i : Fin 16) : Word := ipcBootStatusAddr + 4 * BitVec.ofNat 32 i

/-- The order of the stores: the generation word last. -/
def storeOrder : List (Fin 16) := [0, 1, 2, 4, 5, 6, 7, 8, 9, 10, 11, 12, 13, 14, 15, 3]

def storeWord (status : Status) (m : Memory) (i : Fin 16) : Memory := m.store32 (statusWordAddr i) (status i)

/-- The memory after the first stores of `publish`. -/
def publishPartly (k : Nat) (m : Memory) (status : Status) : Memory :=
  (storeOrder.take k).foldl (storeWord status) m

def publish (m : Memory) (status : Status) : Memory := storeOrder.foldl (storeWord status) m

/-- What Linux reads. -/
def snapshot (m : Memory) : Status := fun i => m.load32 (statusWordAddr i)

theorem statusWordAddr_toNat (i : Fin 16) : (statusWordAddr i).toNat = 0x07130000 + 4 * i.val := by
  revert i
  decide

theorem snapshot_storeWord (status : Status) (m : Memory) (i : Fin 16) :
    snapshot (storeWord status m i) = Function.update (snapshot m) i (status i) :=
  m.load32_words_store32 (by decide) i (status i)

/-- Words already stored are new, the others old. -/
theorem snapshot_foldl (status : Status) (m : Memory) (is : List (Fin 16)) (i : Fin 16) :
    snapshot (is.foldl (storeWord status) m) i = if i ∈ is then status i else snapshot m i := by
  induction is generalizing m with
  | nil => simp
  | cons j is ih =>
    rw [List.foldl_cons, ih, snapshot_storeWord]
    by_cases hj : i = j
    · subst hj
      simp
    · simp [hj]

theorem snapshot_publish (status : Status) (m : Memory) : snapshot (publish m status) = status := by
  funext i
  rw [publish, snapshot_foldl, if_pos]
  revert i
  decide

/-- The test that `is_valid` makes of one word. -/
def Passes (i : Fin 16) (w : Word) : Prop :=
  (i = 0 → w = bootStatusMagic) ∧ (i = 1 → w = bootStatusAbiVersion) ∧ (i = 2 → w = statusSize) ∧
    (i = 3 → w ≠ 0) ∧ (i = 4 → w ≤ BootState.crashed.toWord)

theorem passes_generation (w : Word) : Passes 3 w ↔ w ≠ 0 := by
  simp [Passes]

theorem isValid_iff (s : Status) : s.isValid = true ↔ ∀ i, Passes i (s i) := by
  simp [Status.isValid, Passes, forall_and, Status.magic, Status.abiVersion, Status.sizeBytes,
    Status.generation, Status.state, and_assoc]
  intros
  exact decide_eq_true_iff

/-- Some point of the store order has a changed word on both sides, only words
of the new record that pass before it, and only such words of the old one
after it. -/
def Torn (old new : Status) : Prop :=
  ∃ k, (∀ i ∈ storeOrder.take k, Passes i (new i)) ∧ (∀ i ∉ storeOrder.take k, Passes i (old i)) ∧
    (∃ i ∈ storeOrder.take k, old i ≠ new i) ∧ ∃ i ∉ storeOrder.take k, old i ≠ new i

/-- A snapshot between two stores, for the records before and after it. -/
private theorem snapshot_publishPartly (k : Nat) (m : Memory) (new : Status) (i : Fin 16) :
    snapshot (publishPartly k m new) i = if i ∈ storeOrder.take k then new i else snapshot m i :=
  snapshot_foldl new m _ i

private theorem partly_isValid (k : Nat) (m : Memory) (new : Status) :
    (snapshot (publishPartly k m new)).isValid = true ↔
      (∀ i ∈ storeOrder.take k, Passes i (new i)) ∧ ∀ i ∉ storeOrder.take k, Passes i (snapshot m i) := by
  simp only [isValid_iff, snapshot_publishPartly]
  constructor
  · intro h
    refine ⟨fun i hi => ?_, fun i hi => ?_⟩
    · simpa [hi] using h i
    · simpa [hi] using h i
  · rintro ⟨hn, ho⟩ i
    split
    · exact hn i ‹_›
    · exact ho i ‹_›

private theorem partly_eq_old (k : Nat) (m : Memory) (new : Status) :
    snapshot (publishPartly k m new) = snapshot m ↔ ∀ i ∈ storeOrder.take k, snapshot m i = new i := by
  simp only [funext_iff, snapshot_publishPartly, ite_eq_right_iff]
  exact forall₂_congr fun i _ => eq_comm

private theorem partly_eq_new (k : Nat) (m : Memory) (new : Status) :
    snapshot (publishPartly k m new) = new ↔ ∀ i ∉ storeOrder.take k, snapshot m i = new i := by
  simp only [funext_iff, snapshot_publishPartly, ite_eq_left_iff]

/-- Whatever the record held, every valid snapshot is that or the new record
exactly when no point of the store order tears the two. -/
theorem snapshots_whole_iff (m : Memory) (new : Status) :
    (∀ k, (snapshot (publishPartly k m new)).isValid = true →
      snapshot (publishPartly k m new) = snapshot m ∨ snapshot (publishPartly k m new) = new) ↔
      ¬ Torn (snapshot m) new := by
  simp only [Torn, not_exists, partly_isValid, partly_eq_old, partly_eq_new]
  refine forall_congr' fun k => ?_
  constructor
  · rintro h ⟨hn, ho, ⟨i, hi, hid⟩, j, hj, hjd⟩
    rcases h ⟨hn, ho⟩ with he | he
    · exact hid (he i hi)
    · exact hjd (he j hj)
  · rintro h ⟨hn, ho⟩
    by_contra hc
    simp only [not_or, not_forall] at hc
    obtain ⟨⟨i, hi, hid⟩, j, hj, hjd⟩ := hc
    exact h ⟨hn, ho, ⟨i, hi, hid⟩, j, hj, hjd⟩

private theorem separated (i j : Fin 16) (h : i ≠ j) :
    ∃ k, (i ∈ storeOrder.take k ∧ j ∉ storeOrder.take k) ∨ (j ∈ storeOrder.take k ∧ i ∉ storeOrder.take k) := by
  have hk : ∀ i j : Fin 16, i ≠ j → ∃ k : Fin 16,
      (i ∈ storeOrder.take k ∧ j ∉ storeOrder.take k) ∨ (j ∈ storeOrder.take k ∧ i ∉ storeOrder.take k) := by
    decide
  obtain ⟨k, hk⟩ := hk i j h
  exact ⟨k, hk⟩

/-- Two valid records are torn as soon as they differ in two words. -/
theorem torn_iff_of_isValid {old new : Status} (ho : old.isValid = true) (hn : new.isValid = true) :
    Torn old new ↔ ∃ i j, i ≠ j ∧ old i ≠ new i ∧ old j ≠ new j := by
  rw [isValid_iff] at ho hn
  constructor
  · rintro ⟨k, -, -, ⟨i, hi, hid⟩, j, hj, hjd⟩
    refine ⟨i, j, ?_, hid, hjd⟩
    rintro rfl
    exact hj hi
  · rintro ⟨i, j, hij, hid, hjd⟩
    obtain ⟨k, ⟨hi, hj⟩ | ⟨hj, hi⟩⟩ := separated i j hij
    · exact ⟨k, fun x _ => hn x, fun x _ => ho x, ⟨i, hi, hid⟩, j, hj, hjd⟩
    · exact ⟨k, fun x _ => hn x, fun x _ => ho x, ⟨j, hj, hjd⟩, i, hi, hid⟩

private theorem generation_last (k : Nat) (h : 3 ∈ storeOrder.take k) (i : Fin 16) : i ∈ storeOrder.take k := by
  by_cases hk : k < 16
  · have hsmall : ∀ k : Fin 16, 3 ∉ storeOrder.take k := by decide
    exact absurd h (hsmall ⟨k, hk⟩)
  · rw [List.take_of_length_le (Nat.le_of_not_lt hk)]
    revert i
    decide

/-- A record without a generation can be overwritten safely. -/
theorem not_torn_of_generation {old new : Status} (h : old.generation = 0) : ¬ Torn old new := by
  rintro ⟨k, -, ho, -, i, hi, -⟩
  by_cases h3 : 3 ∈ storeOrder.take k
  · exact hi (generation_last k h3 i)
  · exact (passes_generation _).mp (ho 3 h3) h

/-- The words that `is_valid` tests beside the generation, which is stored behind
them: magic, ABI version, size and state. -/
def headerWords : List (Fin 16) := [0, 1, 2, 4]

def HeaderFails (s : Status) (i : Fin 16) : Prop := i ∈ headerWords ∧ ¬ Passes i (s i)

/-- The pairs of records of which no mixture passes for a record of its own. Word 3
is the generation, the last one stored; the others go in ascending order. -/
inductive Whole (old new : Status) : Prop where
  | unpublished (generation : old.generation = 0)
  | oneWord (same : ∀ i j, old i ≠ new i → old j ≠ new j → i = j)
  /-- A header word of the new record fails, and nothing changes before its store. -/
  | newFails (j : Fin 16) (fails : HeaderFails new j) (before : ∀ i < j, i ≠ 3 → old i = new i)
  /-- A header word of the old record fails, and nothing changes behind its store. -/
  | oldFails (i : Fin 16) (fails : HeaderFails old i) (behind : ∀ j, i < j ∨ j = 3 → old j = new j)
  /-- Some header word of the new record fails at or before one of the old. -/
  | bothFail (i j : Fin 16) (order : j ≤ i) (old_fails : HeaderFails old i) (new_fails : HeaderFails new j)

private def place (i : Fin 16) : ℕ := storeOrder.idxOf i

private theorem mem_take_iff (k : ℕ) (i : Fin 16) : i ∈ storeOrder.take k ↔ place i < k := by
  by_cases hk : k < 16
  · have hall : ∀ (k i : Fin 16), i ∈ storeOrder.take k ↔ place i < k := by decide
    exact hall ⟨k, hk⟩ i
  · rw [List.take_of_length_le (Nat.le_of_not_lt hk)]
    have hall : ∀ i : Fin 16, i ∈ storeOrder ∧ place i < 16 := by decide
    exact iff_of_true (hall i).1 (lt_of_lt_of_le (hall i).2 (Nat.le_of_not_lt hk))

private theorem place_lt_header (i j : Fin 16) (hj : j ∈ headerWords) : place i < place j ↔ i < j ∧ i ≠ 3 := by
  revert i j
  decide

private theorem header_lt_place (i j : Fin 16) (hi : i ∈ headerWords) : place i < place j ↔ i < j ∨ j = 3 := by
  revert i j
  decide

private theorem place_le_header (i j : Fin 16) (hi : i ∈ headerWords) (hj : j ∈ headerWords) :
    place j ≤ place i ↔ j ≤ i := by
  revert i j
  decide

private theorem place_le_generation (i : Fin 16) : place i ≤ place 3 := by
  revert i
  decide

private theorem place_injective {i j : Fin 16} (h : place i = place j) : i = j := by
  revert i j
  decide

private theorem header_of_fails {i : Fin 16} {w : Word} (h : ¬ Passes i w) (h3 : i ≠ 3) : i ∈ headerWords := by
  by_contra hi
  refine h ⟨?_, ?_, ?_, fun he => absurd he h3, ?_⟩ <;> rintro rfl <;> exact absurd (by decide) hi

private theorem not_torn_of_whole {old new : Status} (h : Whole old new) : ¬ Torn old new := by
  cases h with
  | unpublished generation => exact not_torn_of_generation generation
  | oneWord same =>
    rintro ⟨k, -, -, ⟨i, hi, hid⟩, j, hj, hjd⟩
    exact hj (same i j hid hjd ▸ hi)
  | newFails j fails before =>
    rintro ⟨k, hn, -, ⟨i, hi, hid⟩, -⟩
    rw [mem_take_iff] at hi
    have hj : k ≤ place j := by
      by_contra hj
      exact fails.2 (hn j ((mem_take_iff k j).mpr (by omega)))
    obtain ⟨hij, hi3⟩ := (place_lt_header i j fails.1).mp (by omega)
    exact hid (before i hij hi3)
  | oldFails i fails behind =>
    rintro ⟨k, -, ho, -, j, hj, hjd⟩
    rw [mem_take_iff] at hj
    have hi : place i < k := by
      by_contra hi
      exact fails.2 (ho i fun h => hi ((mem_take_iff k i).mp h))
    exact hjd (behind j ((header_lt_place i j fails.1).mp (by omega)))
  | bothFail i j order old_fails new_fails =>
    rintro ⟨k, hn, ho, -⟩
    have hij := (place_le_header i j old_fails.1 new_fails.1).mpr order
    by_cases hi : place i < k
    · exact new_fails.2 (hn j ((mem_take_iff k j).mpr (by omega)))
    · exact old_fails.2 (ho i fun h => hi ((mem_take_iff k i).mp h))

/-- Cut behind the first changed word and behind the last word of the old record
that fails: where none of the cases holds, both halves pass and both have a
changed word. -/
private theorem torn_of_not_whole {old new : Status} (h : ¬ Whole old new) : Torn old new := by
  classical
  have hgen : Passes 3 (old 3) := (passes_generation _).mpr fun h0 => h (.unpublished h0)
  obtain ⟨a, b, had, hbd, hab⟩ : ∃ a b, old a ≠ new a ∧ old b ≠ new b ∧ a ≠ b := by
    by_contra hc
    exact h (.oneWord fun i j hi hj => by_contra fun hij => hc ⟨i, j, hi, hj, hij⟩)
  -- the first changed word, and a changed word behind it
  obtain ⟨d, hd, hmin⟩ := Finset.exists_min_image ({i | old i ≠ new i} : Finset (Fin 16)) place ⟨a, by simpa using had⟩
  simp only [Finset.mem_filter, Finset.mem_univ, true_and] at hd hmin
  obtain ⟨e, hed, hde⟩ : ∃ e, old e ≠ new e ∧ place d < place e := by
    by_contra hc
    have hle : ∀ x, old x ≠ new x → x = d := fun x hx =>
      place_injective (Nat.le_antisymm (Nat.le_of_not_lt fun hlt => hc ⟨x, hx, hlt⟩) (hmin x hx))
    exact hab ((hle a had).trans (hle b hbd).symm)
  have hd3 : place d < place 3 := lt_of_lt_of_le hde (place_le_generation e)
  have hnew : ∀ i, place i ≤ place d → Passes i (new i) := fun i hi => by
    by_contra hf
    have hih := header_of_fails hf (by rintro rfl; omega)
    refine h (.newFails i ⟨hih, hf⟩ fun x hx hx3 => by_contra fun hxd => ?_)
    have := hmin x hxd
    have := (place_lt_header x i hih).mpr ⟨hx, hx3⟩
    omega
  by_cases hold : ∀ i, place d < place i → Passes i (old i)
  · refine ⟨place d + 1, fun i hi => hnew i ?_, fun i hi => hold i ?_, ⟨d, ?_, hd⟩, e, ?_, hed⟩
    all_goals rw [mem_take_iff] at *
    all_goals omega
  · -- the last word of the old record that fails
    simp only [not_forall] at hold
    obtain ⟨c, hdc, hc⟩ := hold
    obtain ⟨f, hf, hmax⟩ := Finset.exists_max_image ({i | ¬ Passes i (old i)} : Finset (Fin 16)) place
      ⟨c, by simpa using hc⟩
    simp only [Finset.mem_filter, Finset.mem_univ, true_and] at hf hmax
    have hfh := header_of_fails hf (by rintro rfl; exact hf hgen)
    have hcf := hmax c hc
    obtain ⟨g, hgd, hfg⟩ : ∃ g, old g ≠ new g ∧ place f < place g := by
      by_contra hn
      refine h (.oldFails f ⟨hfh, hf⟩ fun j hj => by_contra fun hjd => hn ⟨j, hjd, ?_⟩)
      exact (header_lt_place f j hfh).mpr hj
    refine ⟨place f + 1, fun i hi => ?_, fun i hi => ?_, ⟨d, ?_, hd⟩, g, ?_, hgd⟩
    · rw [mem_take_iff] at hi
      by_contra hin
      have hf3 := place_le_generation g
      have hih := header_of_fails hin (by rintro rfl; omega)
      exact h (.bothFail f i ((place_le_header f i hfh hih).mp (by omega)) ⟨hfh, hf⟩ ⟨hih, hin⟩)
    · rw [mem_take_iff] at hi
      by_contra hio
      have := hmax i hio
      omega
    all_goals rw [mem_take_iff]
    all_goals omega

theorem not_torn_iff_whole (old new : Status) : ¬ Torn old new ↔ Whole old new :=
  ⟨fun h => by_contra fun hw => h (torn_of_not_whole hw), not_torn_of_whole⟩

/-- For two valid records that is at most one changed word. -/
theorem whole_iff_of_isValid {old new : Status} (ho : old.isValid = true) (hn : new.isValid = true) :
    Whole old new ↔ ∀ i j, old i ≠ new i → old j ≠ new j → i = j := by
  rw [← not_torn_iff_whole, torn_iff_of_isValid ho hn]
  constructor
  · exact fun h i j hi hj => by_contra fun hij => h ⟨i, j, hij, hi, hj⟩
  · rintro h ⟨i, j, hij, hi, hj⟩
    exact hij (h i j hi hj)

/-- The record after a number of publications. -/
def publishAll (m : Memory) (history : List Status) : Memory := history.foldl publish m

theorem snapshot_publishAll (m : Memory) (history : List Status) :
    snapshot (publishAll m history) = history.getLast?.getD (snapshot m) := by
  rcases history.eq_nil_or_concat with rfl | ⟨earlier, last, rfl⟩
  · rfl
  · rw [publishAll, List.concat_eq_append, List.foldl_append, List.getLast?_concat]
    rw [List.foldl_cons, List.foldl_nil, snapshot_publish, Option.getD_some]

/-- Starting from a zero record, the next publication is atomic for Linux
exactly for the pairs of records of `Whole`. -/
theorem publish_atomic_iff (m : Memory) (zero : snapshot m = fun _ => 0) (history : List Status) (new : Status) :
    (∀ k, (snapshot (publishPartly k (publishAll m history) new)).isValid = true →
      history.getLast? = some (snapshot (publishPartly k (publishAll m history) new)) ∨
        snapshot (publishPartly k (publishAll m history) new) = new) ↔
      Whole (history.getLast?.getD fun _ => 0) new := by
  have hold := snapshot_publishAll m history
  rw [zero] at hold
  rw [← hold, ← not_torn_iff_whole, ← snapshots_whole_iff]
  refine forall_congr' fun k => imp_congr_right fun hv => or_congr_left ?_
  rw [hold]
  cases history.getLast? with
  | some last => simp [eq_comm]
  | none =>
    refine iff_of_false (by simp) fun h => ?_
    rw [h] at hv
    exact absurd hv (by decide)

private def ready : Status := makeStatus .ready .none 1 1 600000000

private theorem snapshot_zero : snapshot (fun _ => 0) = fun _ => 0 := by
  funext i
  change (0#8 ++ 0#8 ++ 0#8 ++ 0#8 : Word) = 0
  decide

/-- The first publication, into a zero record. -/
theorem publish_atomic_first :
    (snapshot (publishPartly 16 (fun _ => 0) ready)).isValid = true ∧
      snapshot (publishPartly 16 (fun _ => 0) ready) = ready := by
  have hv : (snapshot (publishPartly 16 (fun _ => 0) ready)).isValid = true := by
    rw [show publishPartly 16 (fun _ => 0) ready = publish (fun _ => 0) ready from rfl, snapshot_publish]
    decide
  have h := (publish_atomic_iff (fun _ => 0) snapshot_zero [] ready).mpr (.unpublished rfl)
  exact ⟨hv, (h 16 hv).resolve_left (by simp)⟩

/-- Ready, then the trap handler's record for an illegal instruction: after the
fourth store Linux accepts a crash without a reason. -/
theorem crash_after_ready_torn :
    let crash := crashStatus 600000000 2 0x40000100 0
    let seen := snapshot (publishPartly 4 (publish (fun _ => 0) ready) crash)
    seen.isValid = true ∧ seen ≠ ready ∧ seen ≠ crash := by
  intro crash seen
  have hseen : seen = fun i => if i ∈ storeOrder.take 4 then crash i else ready i := by
    funext i
    rw [← snapshot_publish ready fun _ => 0]
    exact snapshot_publishPartly 4 _ crash i
  rw [hseen]
  decide

end IoProcessor.Hal.Boot
