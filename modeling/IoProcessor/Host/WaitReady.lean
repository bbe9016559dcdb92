import IoProcessor.Hal.BootHandshake
import IoProcessor.Host.Formats

/-! `wait_for_ready` against a firmware that was just started: the host polls
the status window, which holds what an earlier boot left in it until the
firmware has stored its own record. -/
namespace IoProcessor.Host
open Library Hal MemoryMap Boot

/-- A start of the firmware: the handshake, where the image makes it, and a
trap, after which nothing follows. -/
structure Startup where
  handshake : Option (Clocking.ClockConfiguration × Word)
  trap : Option (Word × Word × Word × Word)

/-- The records it publishes, in order. -/
def Startup.records (s : Startup) : List Status :=
  (s.handshake.map fun (c, tick) => handshakeStatus c tick).toList ++
    (s.trap.map fun (coreHz, mcause, mepc, mtval) => crashStatus coreHz mcause mepc mtval).toList

/-- The window after a number of stores; a record takes sixteen. -/
def window (m : Memory) : List Status → Nat → Memory
  | [], _ => m
  | r :: records, stores =>
    if stores < 16 then publishPartly stores m r else window (publish m r) records (stores - 16)

/-- How the wait ends, with the number of stores made when the host read the
record it decides on. -/
inductive Verdict where
  | ready (stores : Nat) (status : BootStatus)
  | failed (stores : Nat) (status : BootStatus)
  | timedOut
  deriving DecidableEq, Repr

def Verdict.exitCode : Verdict → Nat
  | .ready _ _ => 0
  | .failed _ _ | .timedOut => 2

/-- The polls until the deadline: each comes some stores after the one before,
and an exception in it is passed over. -/
def waitForReady (shown : Nat → Memory) : Nat → List (Nat × Bool) → Verdict
  | _, [] => .timedOut
  | stores, (elapsed, readable) :: polls =>
    let stores := stores + elapsed
    if !readable then waitForReady shown stores polls
    else match BootStatus.unpack ((shown stores).read ⟨ipcBootStatusAddr, 64⟩) with
      | .error _ => waitForReady shown stores polls
      | .ok status =>
        if status.isValid then
          if status.state = 2 then .ready stores status
          else if status.state = 3 ∨ status.state = 4 then .failed stores status
          else waitForReady shown stores polls
        else waitForReady shown stores polls

/-- Whenever the wait returns 0, the firmware has by then published the record
that it accepted. -/
def Fresh (m : Memory) (startup : Startup) : Prop :=
  ∀ polls, (waitForReady (window m startup.records) 0 polls).exitCode = 0 →
    ∃ stores, ∃ r ∈ startup.records.take (stores / 16),
      waitForReady (window m startup.records) 0 polls = .ready stores (BootStatus.ofStatus r)

/-- A snapshot that the host accepts. -/
def Accepted (s : Status) : Prop := s.isValid = true ∧ s.state = BootState.ready.toWord

instance (s : Status) : Decidable (Accepted s) := inferInstanceAs (Decidable (_ ∧ _))

theorem accepted_state (s : Status) : (BootStatus.ofStatus s).state = 2 ↔ s.state = BootState.ready.toWord :=
  BitVec.toNat_inj (y := BootState.ready.toWord)

theorem waitForReady_ready {shown : Nat → Memory} {start stores : Nat} {polls : List (Nat × Bool)}
    {status : BootStatus} (h : waitForReady shown start polls = .ready stores status) :
    Accepted (snapshot (shown stores)) ∧ status = BootStatus.ofStatus (snapshot (shown stores)) := by
  induction polls generalizing start with
  | nil => simp [waitForReady] at h
  | cons poll polls ih =>
    obtain ⟨elapsed, readable⟩ := poll
    simp only [waitForReady, BootStatus.unpack_read, BootStatus.isValid_ofStatus, accepted_state] at h
    split at h
    · exact ih h
    · split at h
      · split at h
        · cases h
          exact ⟨⟨by assumption, by assumption⟩, rfl⟩
        · split at h
          · cases h
          · exact ih h
      · exact ih h

theorem waitForReady_once {shown : Nat → Memory} {stores : Nat} (h : Accepted (snapshot (shown stores))) :
    waitForReady shown 0 [(stores, true)] = .ready stores (BootStatus.ofStatus (snapshot (shown stores))) := by
  have hstate := (accepted_state _).mpr h.2
  simp only [waitForReady, Nat.zero_add, Bool.not_true, Bool.false_eq_true, if_false, BootStatus.unpack_read,
    BootStatus.isValid_ofStatus, h.1, hstate, if_true]

/-- What matters is what the window can show. -/
theorem fresh_iff_shown (m : Memory) (startup : Startup) :
    Fresh m startup ↔ ∀ stores, Accepted (snapshot (window m startup.records stores)) →
      ∃ r ∈ startup.records.take (stores / 16),
        BootStatus.ofStatus (snapshot (window m startup.records stores)) = BootStatus.ofStatus r := by
  constructor
  · intro h stores ha
    have hw := waitForReady_once ha
    obtain ⟨stores', r, hr, hw'⟩ := h [(stores, true)] (by rw [hw]; rfl)
    rw [hw, Verdict.ready.injEq] at hw'
    exact ⟨r, hw'.1 ▸ hr, hw'.2⟩
  · intro h polls hexit
    cases hw : waitForReady (window m startup.records) 0 polls with
    | ready stores status =>
      obtain ⟨ha, rfl⟩ := waitForReady_ready hw
      obtain ⟨r, hr, he⟩ := h stores ha
      exact ⟨stores, r, hr, by rw [he]⟩
    | failed stores status | timedOut => simp [hw, Verdict.exitCode] at hexit

/-- The words that every record of the firmware has alike. -/
def Stamped (r : Status) : Prop := ∀ i ∈ storeOrder.take 3, r i = makeStatus .reset .none 0 0 0 i

theorem stamped_makeStatus (state : BootState) (reason : FailureReason) (generation clockGeneration coreHz : Word) :
    Stamped (makeStatus state reason generation clockGeneration coreHz) := by
  intro i hi
  have hi : i = 0 ∨ i = 1 ∨ i = 2 := by simpa [storeOrder] using hi
  rcases hi with rfl | rfl | rfl <;> simp only [makeStatus, Matrix.cons_val]

theorem stamped_handshakeStatus (c : Clocking.ClockConfiguration) (tick : Word) : Stamped (handshakeStatus c tick) := by
  unfold handshakeStatus
  simp only
  split
  · exact stamped_makeStatus _ _ _ _ _
  · split <;> exact stamped_makeStatus _ _ _ _ _

theorem stamped_crashStatus (coreHz mcause mepc mtval : Word) : Stamped (crashStatus coreHz mcause mepc mtval) := by
  intro i hi
  have hi : i = 0 ∨ i = 1 ∨ i = 2 := by simpa [storeOrder] using hi
  rcases hi with rfl | rfl | rfl <;> rfl

private theorem early_words {k : Nat} (hk : k < 16) : 3 ∉ storeOrder.take k ∧ (4 ∈ storeOrder.take k ↔ 4 ≤ k) ∧
    (k ≤ 3 → ∀ i ∈ storeOrder.take k, i ∈ storeOrder.take 3) ∧ (3 ≤ k → ∀ i ∈ storeOrder.take 3, i ∈ storeOrder.take k) := by
  have h : ∀ k : Fin 16, 3 ∉ storeOrder.take k ∧ (4 ∈ storeOrder.take k ↔ 4 ≤ k.val) ∧
      (k.val ≤ 3 → ∀ i ∈ storeOrder.take k, i ∈ storeOrder.take 3) ∧
      (3 ≤ k.val → ∀ i ∈ storeOrder.take 3, i ∈ storeOrder.take k) := by
    decide
  exact h ⟨k, hk⟩

/-- Before the last store of a record, the window shows the generation that was
there, and the state once it is stored. -/
theorem partly_words (m : Memory) (r : Status) {k : Nat} (hk : k < 16) :
    (snapshot (publishPartly k m r)).generation = (snapshot m).generation ∧
      (snapshot (publishPartly k m r)).state = if 4 ≤ k then r.state else (snapshot m).state := by
  obtain ⟨h3, h4, -⟩ := early_words hk
  constructor
  · exact (snapshot_foldl r m _ 3).trans (if_neg h3)
  · refine (snapshot_foldl r m _ 4).trans ?_
    rw [if_congr h4 rfl rfl]
    rfl

/-- From the third store on, only the old generation and the state decide. -/
theorem partly_accepted {m : Memory} {r : Status} (hr : Stamped r) {k : Nat} (h3 : 3 ≤ k) (hk : k < 16) :
    Accepted (snapshot (publishPartly k m r)) ↔ (snapshot m).generation ≠ 0 ∧
      (if 4 ≤ k then r.state else (snapshot m).state) = BootState.ready.toWord := by
  obtain ⟨hg, hs⟩ := partly_words m r hk
  have hstamp (i : Fin 16) (hi : i ∈ storeOrder.take 3) :
      snapshot (publishPartly k m r) i = makeStatus .reset .none 0 0 0 i := by
    refine (snapshot_foldl r m _ i).trans ?_
    rw [if_pos ((early_words hk).2.2.2 h3 i hi), hr i hi]
  have hvalid : (snapshot (publishPartly k m r)).isValid = true ↔ (snapshot m).generation ≠ 0 ∧
      (snapshot (publishPartly k m r)).state ≤ BootState.crashed.toWord := by
    unfold Status.isValid Status.magic Status.abiVersion Status.sizeBytes
    rw [hstamp 0 (by decide), hstamp 1 (by decide), hstamp 2 (by decide), hg]
    simp [makeStatus]
  rw [Accepted, hvalid, hs]
  constructor
  · exact fun h => ⟨h.1.1, h.2⟩
  · exact fun h => ⟨⟨h.1, by rw [h.2]; decide⟩, h.2⟩

theorem window_cons_early (m : Memory) (r : Status) (records : List Status) {k : Nat} (hk : k < 16) :
    window m (r :: records) k = publishPartly k m r := if_pos hk

theorem window_cons_late (m : Memory) (r : Status) (records : List Status) {k : Nat} (hk : ¬ k < 16) :
    window m (r :: records) k = window (publish m r) records (k - 16) := if_neg hk

/-- The trap handler's record takes the state with its fourth store, and the
words before that are the same in every record. -/
private theorem crash_shows_first {first : Status} (hf : Stamped first) (m : Memory) (coreHz mcause mepc mtval : Word)
    {k : Nat} (ha : Accepted (snapshot (window (publish m first) [crashStatus coreHz mcause mepc mtval] k))) :
    snapshot (window (publish m first) [crashStatus coreHz mcause mepc mtval] k) = first := by
  have hcrash := stamped_crashStatus coreHz mcause mepc mtval
  have hstate : (crashStatus coreHz mcause mepc mtval).state ≠ BootState.ready.toWord := by
    change (4 : Word) ≠ 2
    decide
  by_cases hk : k < 16
  · rw [window_cons_early _ _ _ hk] at ha ⊢
    obtain ⟨-, hs⟩ := partly_words (publish m first) (crashStatus coreHz mcause mepc mtval) hk
    have h4 : ¬ 4 ≤ k := fun h4 => hstate (by rw [← ha.2, hs, if_pos h4])
    funext i
    refine (snapshot_foldl _ _ _ i).trans ?_
    split
    · rename_i hi
      have hi := (early_words hk).2.2.1 (by omega) i hi
      rw [hcrash i hi, hf i hi]
    · rw [snapshot_publish]
  · rw [window_cons_late _ _ _ hk, window, snapshot_publish] at ha
    exact absurd ha.2 hstate

/-- The firmware's record is the first to be accepted: nothing was committed in
the window, or neither the state left there nor that of the first record is
Ready. A firmware that publishes nothing finds no Ready record there. -/
def NothingStale (old : Status) (startup : Startup) : Prop :=
  match startup.records with
  | [] => ¬ Accepted old
  | first :: _ => old.generation = 0 ∨ (old.state ≠ BootState.ready.toWord ∧ first.state ≠ BootState.ready.toWord)

private theorem fresh_of_first {m : Memory} {startup : Startup} {first : Status} {rest : List Status}
    (hr : startup.records = first :: rest) (hf : Stamped first)
    (hrest : rest = [] ∨ ∃ coreHz mcause mepc mtval, rest = [crashStatus coreHz mcause mepc mtval]) :
    Fresh m startup ↔ ((snapshot m).generation = 0 ∨
      ((snapshot m).state ≠ BootState.ready.toWord ∧ first.state ≠ BootState.ready.toWord)) := by
  rw [fresh_iff_shown, hr]
  constructor
  · intro h
    by_contra hc
    rw [not_or, not_and_or, not_not, not_not] at hc
    obtain ⟨hg, hs | hs⟩ := hc
    · have ha := (partly_accepted (m := m) hf (k := 3) (by omega) (by omega)).mpr ⟨hg, hs⟩
      obtain ⟨r, hmem, -⟩ := h 3 ha
      simp at hmem
    · have ha := (partly_accepted (m := m) hf (k := 4) (by omega) (by omega)).mpr ⟨hg, hs⟩
      obtain ⟨r, hmem, -⟩ := h 4 ha
      simp at hmem
  · intro h stores ha
    by_cases hk : stores < 16
    · rw [window_cons_early _ _ _ hk] at ha
      obtain ⟨hg, hs⟩ := partly_words m first hk
      have hgen : (snapshot m).generation ≠ 0 := by
        have hv := ha.1
        rw [isValid_iff] at hv
        rw [← hg]
        exact (hv 3).2.2.2.1 rfl
      obtain ⟨hold, hnew⟩ := h.resolve_left hgen
      have hready := hs.symm.trans ha.2
      split at hready
      · exact absurd hready hnew
      · exact absurd hready hold
    · rw [window_cons_late _ _ _ hk] at ha ⊢
      have hmem : first ∈ (first :: rest).take (stores / 16) := by
        obtain ⟨n, hn⟩ : ∃ n, stores / 16 = n + 1 := ⟨stores / 16 - 1, by omega⟩
        rw [hn]
        simp
      refine ⟨first, hmem, congrArg BootStatus.ofStatus ?_⟩
      rcases hrest with rfl | ⟨coreHz, mcause, mepc, mtval, rfl⟩
      · exact snapshot_publish first m
      · exact crash_shows_first hf m coreHz mcause mepc mtval ha

/-- The wait reports only records of the firmware started last, at whatever
points it polls, exactly when nothing stale can be taken for one of them. -/
theorem wait_for_ready_fresh_iff (m : Memory) (startup : Startup) :
    Fresh m startup ↔ NothingStale (snapshot m) startup := by
  obtain ⟨handshake, trap⟩ := startup
  cases handshake with
  | some h =>
    obtain ⟨c, tick⟩ := h
    cases trap with
    | none => exact fresh_of_first rfl (stamped_handshakeStatus c tick) (.inl rfl)
    | some t =>
      obtain ⟨coreHz, mcause, mepc, mtval⟩ := t
      exact fresh_of_first rfl (stamped_handshakeStatus c tick) (.inr ⟨coreHz, mcause, mepc, mtval, rfl⟩)
  | none =>
    cases trap with
    | none =>
      rw [fresh_iff_shown]
      constructor
      · intro h ha
        obtain ⟨r, hr, -⟩ := h 0 ha
        simp at hr
      · exact fun h _ ha => absurd ha h
    | some t =>
      obtain ⟨coreHz, mcause, mepc, mtval⟩ := t
      exact fresh_of_first rfl (stamped_crashStatus coreHz mcause mepc mtval) (.inl rfl)

private def staleReady : Status := makeStatus .ready .none 1 1 600000000

private def secondBoot : Startup :=
  ⟨some (![0x4B4C4343, 1, 64, 2, 600000000, 24000000, 0, 0, 0, 0, 0, 0, 0, 0, 0, 0], 1000), none⟩

private theorem reported_at_once {m : Memory} {startup : Startup} {r : Status} {rest : List Status}
    (hr : startup.records = r :: rest) (h : Accepted (snapshot m)) :
    waitForReady (window m startup.records) 0 [(0, true)] = .ready 0 (BootStatus.ofStatus (snapshot m)) := by
  have hshown : window m startup.records 0 = m := by
    rw [hr, window_cons_early m r rest (by omega)]
    rfl
  have hw := waitForReady_once (hshown.symm ▸ h : Accepted (snapshot (window m startup.records 0)))
  rwa [hshown] at hw

/-- The first boot left a Ready record, and the second has not stored anything
when the host polls for the first time. -/
theorem stale_ready_reported :
    let m := publish (fun _ => 0) staleReady
    waitForReady (window m secondBoot.records) 0 [(0, true)] = .ready 0 (BootStatus.ofStatus staleReady) ∧
      ¬ Fresh m secondBoot := by
  intro m
  have hold : snapshot m = staleReady := snapshot_publish staleReady _
  have haccepted : Accepted (snapshot m) := by
    rw [hold]
    decide
  have hw : waitForReady (window m secondBoot.records) 0 [(0, true)] = .ready 0 (BootStatus.ofStatus (snapshot m)) :=
    reported_at_once rfl haccepted
  refine ⟨hold ▸ hw, fun h => ?_⟩
  obtain ⟨stores, r, hr, hw'⟩ := h [(0, true)] (by rw [hw]; rfl)
  rw [hw, Verdict.ready.injEq] at hw'
  rw [← hw'.1] at hr
  simp at hr

/-- The moments of the polls that can be read. -/
def readings : Nat → List (Nat × Bool) → List Nat
  | _, [] => []
  | k, (elapsed, readable) :: polls =>
    if readable then (k + elapsed) :: readings (k + elapsed) polls else readings (k + elapsed) polls

/-- The verdict on a record that ends the wait. -/
def verdict (k : Nat) (status : Status) : Verdict :=
  if status.state = BootState.ready.toWord then .ready k (BootStatus.ofStatus status)
  else .failed k (BootStatus.ofStatus status)

/-- A wait on a window without a record before some moment, and with a record
that ends it from then on. -/
theorem waitForReady_decides {shown : Nat → Memory} {n : Nat} {status : Status}
    (hbefore : ∀ k < n, (snapshot (shown k)).isValid = false) (hafter : ∀ k, n ≤ k → snapshot (shown k) = status)
    (hvalid : status.isValid = true)
    (hstate : status.state ∈ [BootState.ready.toWord, BootState.initFailed.toWord, BootState.crashed.toWord])
    (k : Nat) (polls : List (Nat × Bool)) :
    (waitForReady shown k polls = .timedOut ∧ ∀ j ∈ readings k polls, j < n) ∨
      ∃ j ∈ readings k polls, n ≤ j ∧ waitForReady shown k polls = verdict j status := by
  induction polls generalizing k with
  | nil => exact .inl ⟨rfl, by simp [readings]⟩
  | cons poll polls ih =>
    obtain ⟨elapsed, readable⟩ := poll
    rw [waitForReady, readings]
    cases readable with
    | false => simpa using ih (k + elapsed)
    | true =>
      simp only [Bool.not_true, Bool.false_eq_true, if_false, if_true, BootStatus.unpack_read, BootStatus.isValid_ofStatus]
      rcases Nat.lt_or_ge (k + elapsed) n with hearly | hlate
      · rw [hbefore _ hearly, if_neg Bool.false_ne_true]
        rcases ih (k + elapsed) with ⟨hout, hall⟩ | ⟨j, hj, hn, hdecided⟩
        · exact .inl ⟨hout, List.forall_mem_cons.mpr ⟨hearly, hall⟩⟩
        · exact .inr ⟨j, List.mem_cons_of_mem _ hj, hn, hdecided⟩
      · refine .inr ⟨k + elapsed, List.mem_cons_self, hlate, ?_⟩
        have hfailed : status.state ≠ BootState.ready.toWord →
            (BootStatus.ofStatus status).state = 3 ∨ (BootStatus.ofStatus status).state = 4 := by
          intro hready
          simp only [List.mem_cons, List.not_mem_nil, or_false] at hstate
          exact (hstate.resolve_left hready).imp (congrArg BitVec.toNat) (congrArg BitVec.toNat)
        rw [hafter _ hlate, hvalid, if_pos rfl, verdict]
        simp only [accepted_state]
        split
        · rfl
        · rename_i hready
          rw [if_pos (hfailed hready)]

/-- The same for one record on a window that holds none. -/
theorem waitForReady_record {m : Memory} {r : Status} (hm : (snapshot m).generation = 0) (hvalid : r.isValid = true)
    (hstate : r.state ∈ [BootState.ready.toWord, BootState.initFailed.toWord, BootState.crashed.toWord])
    (polls : List (Nat × Bool)) :
    (waitForReady (window m [r]) 0 polls = .timedOut ∧ ∀ j ∈ readings 0 polls, j < 16) ∨
      ∃ j ∈ readings 0 polls, 16 ≤ j ∧ waitForReady (window m [r]) 0 polls = verdict j r := by
  refine waitForReady_decides (fun k hk => ?_) (fun k hk => ?_) hvalid hstate 0 polls
  · rw [window_cons_early _ _ _ hk, Status.isValid, (partly_words _ _ hk).1, hm]
    simp
  · rw [window_cons_late _ _ _ (by omega), window, snapshot_publish]

end IoProcessor.Host
