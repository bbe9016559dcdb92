import Mathlib.Order.Fin.Basic
import Mathlib.Data.Fintype.EquivFin
import IoProcessor.Library.SplitRead
import IoProcessor.Hal.HardwareTimer

/-! HardwareTimer at its 64-bit registers, which it reads and writes a word at a
time while the time goes on. -/
namespace IoProcessor.Hal.HardwareTimer
open Library SplitRead

/-- A 64-bit counter over time: it may stand still or advance by any amount. -/
structure Counter (τ : Type*) [Preorder τ] where
  value : τ → BitVec 64
  advances : ∀ s t, s ≤ t → value s ≤ value t

/-- A counter that counts the moments and stops at a value. -/
def Counter.upTo (limit : BitVec 64) : Counter Nat where
  value m := .ofNat 64 (min m limit.toNat)
  advances s t h := by
    have hlimit := limit.isLt
    rw [BitVec.le_def, BitVec.toNat_ofNat, BitVec.toNat_ofNat, Nat.mod_eq_of_lt (by omega), Nat.mod_eq_of_lt (by omega)]
    omega

theorem Counter.upTo_le (limit : BitVec 64) (m : Nat) : ((upTo limit).value m).toNat ≤ limit.toNat := by
  have hlimit := limit.isLt
  rw [upTo, BitVec.toNat_ofNat, Nat.mod_eq_of_lt (by omega)]
  exact Nat.min_le_right _ _

/-- The moments of the accesses of one call; an interrupt may be taken between
any two of them. -/
structure Schedule (τ : Type*) [Preorder τ] where
  time : Nat → τ
  mono : Monotone time

def highWord (v : BitVec 64) : Word := v.extractLsb' 32 32
def lowWord (v : BitVec 64) : Word := v.extractLsb' 0 32

/-- The counters of the core. -/
structure Counters (τ : Type*) [Preorder τ] where
  mtime : Counter τ
  mcycle : Counter τ

section Reads
variable {τ : Type*} [Preorder τ]

/-- The value returned, and the number of accesses. -/
def readHighLowHigh (counter : Counter τ) (s : Schedule τ) (fuel : Nat) : Option (BitVec 64 × Nat) :=
  (readLoop highWord lowWord counter.value s.time fuel 0).map fun ((high, low), n) =>
    ((high.setWidth 64 <<< 32) ||| low.setWidth 64, n)

def readMtime (c : Counters τ) : Schedule τ → Nat → Option (BitVec 64 × Nat) := readHighLowHigh c.mtime

def getCycles (c : Counters τ) : Schedule τ → Nat → Option (BitVec 64 × Nat) := readHighLowHigh c.mcycle

theorem joined_words (v : BitVec 64) :
    ((highWord v).setWidth 64 <<< 32) ||| (lowWord v).setWidth 64 = v := by
  apply BitVec.eq_of_getLsbD_eq
  intro i hi
  simp only [highWord, lowWord, BitVec.getLsbD_or, BitVec.getLsbD_shiftLeft, BitVec.getLsbD_setWidth,
    BitVec.getLsbD_extractLsb']
  by_cases h : i < 32
  · simp [h, hi]
  · simp [h, hi, show i - 32 < 32 by omega, show i - 32 < 64 by omega, show 32 + (i - 32) = i by omega]

theorem toNat_highWord (v : BitVec 64) : (highWord v).toNat = v.toNat / 2^32 := by
  have hv := v.isLt
  rw [highWord, BitVec.extractLsb'_toNat, Nat.shiftRight_eq_div_pow]
  omega

theorem highWord_advances (counter : Counter τ) (s : Schedule τ) :
    Monotone fun k => (highWord (counter.value (s.time k))).toFin := by
  intro j k hjk
  have hle : (counter.value (s.time j)).toNat ≤ (counter.value (s.time k)).toNat := counter.advances _ _ (s.mono hjk)
  change (highWord (counter.value (s.time j))).toNat ≤ (highWord (counter.value (s.time k))).toNat
  rw [toNat_highWord, toNat_highWord]
  exact Nat.div_le_div_right hle

theorem toFin_injective : Function.Injective (BitVec.toFin : Word → Fin (2^32)) := fun _ _ => BitVec.eq_of_toFin_eq

/-- A way to read a counter that never mixes two of its values. -/
structure Untorn (counter : Counter τ) (read : Schedule τ → Nat → Option (BitVec 64 × Nat)) : Prop where
  exits : ∀ s, ∃ fuel r, read s fuel = some r
  moment : ∀ s fuel v n, read s fuel = some (v, n) →
    ∃ j m, n = j+3 ∧ s.time j ≤ m ∧ m ≤ s.time (j+2) ∧ v = counter.value m
  forward : ∀ s fuel v n, read s fuel = some (v, n) → ∀ s' fuel' v' n', read s' fuel' = some (v', n') →
    s.time (n-1) ≤ s'.time 0 → v ≤ v'

theorem readHighLowHigh_moment {counter : Counter τ} {s : Schedule τ} {fuel n : Nat} {v : BitVec 64}
    (h : readHighLowHigh counter s fuel = some (v, n)) : ∃ j, n = j+3 ∧ v = counter.value (s.time (j+1)) := by
  rw [readHighLowHigh, Option.map_eq_some_iff] at h
  obtain ⟨⟨r, n'⟩, hr, he⟩ := h
  obtain ⟨rfl, rfl⟩ := Prod.mk.inj he
  obtain ⟨j, -, hn, rfl⟩ := readLoop_untorn toFin_injective (highWord_advances counter s) hr
  exact ⟨j, hn, joined_words _⟩

theorem readHighLowHigh_untorn (counter : Counter τ) : Untorn counter (readHighLowHigh counter) where
  exits s := by
    have hexits : ∃ fuel r, readLoop highWord lowWord counter.value s.time fuel 0 = some r :=
      readLoop_exits toFin_injective (highWord_advances counter s) 0
    obtain ⟨fuel, r, hr⟩ := hexits
    exact ⟨fuel, _, by rw [readHighLowHigh, hr, Option.map_some]⟩
  moment s fuel v n h := by
    obtain ⟨j, hn, hv⟩ := readHighLowHigh_moment h
    exact ⟨j, s.time (j+1), hn, s.mono (by omega), s.mono (by omega), hv⟩
  forward s fuel v n h s' fuel' v' n' h' hlater := by
    obtain ⟨j, rfl, rfl⟩ := readHighLowHigh_moment h
    obtain ⟨j', -, rfl⟩ := readHighLowHigh_moment h'
    apply counter.advances
    calc s.time (j+1) ≤ s.time (j+3-1) := s.mono (by omega)
      _ ≤ s'.time 0 := hlater
      _ ≤ s'.time (j'+1) := s'.mono (by omega)

/-- Both counters are read as they were at one moment of the last round, however
often the low word has wrapped, and a later call never reads an earlier value. -/
theorem counter_reads_untorn (c : Counters τ) : Untorn c.mtime (readMtime c) ∧ Untorn c.mcycle (getCycles c) :=
  ⟨readHighLowHigh_untorn c.mtime, readHighLowHigh_untorn c.mcycle⟩

end Reads

/-- The loop needs no more rounds than the high word has values. -/
theorem readLoop_returns (counter : Counter Nat) (k : Nat) :
    (readLoop highWord lowWord counter.value id (2^32) k).isSome := by
  have hadvance : Monotone fun k => (highWord (counter.value (id k))).toNat :=
    highWord_advances counter ⟨id, monotone_id⟩
  exact readLoop_exits_within (fun _ _ => BitVec.eq_of_toNat_eq) hadvance (fun v => v.isLt) (by omega)

/-- A call whose first access has a given number: the value, and the number of the
access behind its last one. -/
@[irreducible] def readCounter (counter : Counter Nat) (k : Nat) : BitVec 64 × Nat :=
  let ((high, low), k) := (readLoop highWord lowWord counter.value id (2^32) k).get (readLoop_returns counter k)
  ((high.setWidth 64 <<< 32) ||| low.setWidth 64, k)

/-- The value is that of some access of the call. -/
theorem readCounter_moment (counter : Counter Nat) (k : Nat) :
    ∃ j, k ≤ j ∧ j < (readCounter counter k).2 ∧ (readCounter counter k).1 = counter.value j := by
  obtain ⟨⟨⟨high, low⟩, n⟩, hr⟩ := Option.isSome_iff_exists.mp (readLoop_returns counter k)
  obtain ⟨j, hj, rfl, hparts⟩ := readLoop_untorn toFin_injective (highWord_advances counter ⟨id, monotone_id⟩) hr
  obtain ⟨rfl, rfl⟩ := Prod.mk.inj hparts
  refine ⟨j+1, by omega, ?_, ?_⟩
  · simp only [readCounter, hr, Option.get_some]
    omega
  · simp only [readCounter, hr, Option.get_some]
    exact joined_words _

/-- The state behind some of the stores of `write_mtimecmp`. -/
def afterStores (t : State) (target : BitVec 64) : Nat → State
  | 0 => t
  | 1 => { t with mtimecmpHigh := 0xFFFFFFFF }
  | 2 => { t with mtimecmpHigh := 0xFFFFFFFF, mtimecmpLow := target.setWidth 32 }
  | _+3 => { t with mtimecmpLow := target.setWidth 32, mtimecmpHigh := (target >>> 32).setWidth 32 }

theorem afterStores_all (t : State) (target : BitVec 64) : afterStores t target 3 = writeMtimecmp t target := rfl

/-- A call of `write_mtimecmp`: the moments of its stores, and `mtime`, which
does not come near its end meanwhile. -/
structure Rewrite (τ : Type*) [LinearOrder τ] where
  mtime : Counter τ
  first : τ
  second : τ
  last : τ
  first_le : first ≤ second
  second_le : second ≤ last
  stays_below : ∀ m, first ≤ m → m ≤ last → mtime.value m < 0xFFFFFFFF00000000

section Rewrites
variable {τ : Type*} [LinearOrder τ]

def Rewrite.storesBy (w : Rewrite τ) (m : τ) : Nat :=
  if m < w.first then 0 else if m < w.second then 1 else if m < w.last then 2 else 3

/-- The compare register over time. -/
def Rewrite.mtimecmp (w : Rewrite τ) (t : State) (target : BitVec 64) (m : τ) : BitVec 64 :=
  (afterStores t target (w.storesBy m)).mtimecmp

/-- Between the stores the high word is out of reach. -/
theorem high_out_of_reach {t : State} (h : t.mtimecmpHigh = 0xFFFFFFFF) : 0xFFFFFFFF00000000 ≤ t.mtimecmp := by
  rw [BitVec.le_def, State.mtimecmp, h, BitVec.toNat_append]
  exact Nat.left_le_or

theorem Rewrite.high_between (w : Rewrite τ) (t : State) (target : BitVec 64) {m : τ} (hfirst : w.first ≤ m)
    (hlast : m < w.last) : (afterStores t target (w.storesBy m)).mtimecmpHigh = 0xFFFFFFFF := by
  rw [storesBy, if_neg (not_lt_of_ge hfirst)]
  split
  · rfl
  · rfl

/-- Until its last store a call of `write_mtimecmp` shows no match that the old
value has not shown before the first one, and then the register holds the
target. -/
theorem rewrite_without_spurious_match (w : Rewrite τ) (t : State) (target : BitVec 64) :
    (∀ m < w.last, w.mtimecmp t target m ≤ w.mtime.value m → m < w.first ∧ t.mtimecmp ≤ w.mtime.value m) ∧
      ∀ m, w.last ≤ m → w.mtimecmp t target m = target := by
  constructor
  · intro m hlast hmatch
    rcases lt_or_ge m w.first with hfirst | hfirst
    · refine ⟨hfirst, ?_⟩
      rw [Rewrite.mtimecmp, Rewrite.storesBy, if_pos hfirst] at hmatch
      exact hmatch
    · have hreach : 0xFFFFFFFF00000000 ≤ w.mtimecmp t target m := high_out_of_reach (w.high_between t target hfirst hlast)
      have hbelow := w.stays_below m hfirst hlast.le
      exact absurd (BitVec.le_trans hreach hmatch) (BitVec.not_le.mpr hbelow)
  · intro m hm
    have hsecond := w.second_le.trans hm
    have hall : w.storesBy m = 3 := by
      rw [Rewrite.storesBy, if_neg (not_lt_of_ge (w.first_le.trans hsecond)), if_neg (not_lt_of_ge hsecond),
        if_neg (not_lt_of_ge hm)]
    rw [Rewrite.mtimecmp, hall, afterStores_all]
    exact mtimecmp_writeMtimecmp t target

/-- A rewrite at the moments 10, 12 and 14 of a counter. -/
private def rewriteAtTen : Rewrite Nat where
  mtime := .upTo 1000
  first := 10
  second := 12
  last := 14
  first_le := by decide
  second_le := by decide
  stays_below m _ _ := lt_of_le_of_lt (Counter.upTo_le 1000 m) (by decide)

/-- The old value matches up to the first store, and the new one is out of reach. -/
theorem rewrite_at_ten :
    let t := atReset 5 0 0 0
    t.mtimecmp ≤ rewriteAtTen.mtime.value 9 ∧ ¬ rewriteAtTen.mtimecmp t 200 13 ≤ rewriteAtTen.mtime.value 13 ∧
      rewriteAtTen.mtimecmp t 200 14 = 200 := by
  intro t
  obtain ⟨hmatch, hlast⟩ := rewrite_without_spurious_match rewriteAtTen t 200
  refine ⟨by decide, fun h => ?_, hlast 14 (Nat.le_refl 14)⟩
  exact absurd (hmatch 13 (by decide) h).1 (by decide)

end Rewrites
end IoProcessor.Hal.HardwareTimer
