import Mathlib.Algebra.Order.Field.Basic
import Mathlib.Algebra.Order.Field.Rat
import Mathlib.Tactic.IntervalCases
import IoProcessor.Hal.MemoryMap
import IoProcessor.Library.KeepBest

/-! The clock dividers that the bus drivers program: the search of TwiDriver for
the closest rate, and the two divider modes of SpiDmaDriver. -/
namespace IoProcessor.Hal
open Library KeepBest

namespace Twi

/-- The divider of one pair of fields, and the rate that it gives. -/
def divisor (n m : Nat) : Word := 10 * (1#32 <<< n) * (BitVec.ofNat 32 m + 1)

def actualScl (parentClockHz : Word) (n m : Nat) : Word := parentClockHz / divisor n m

def sclDiff (targetSclHz parentClockHz : Word) (n m : Nat) : Word :=
  let actual := actualScl parentClockHz n m
  if actual > targetSclHz then actual - targetSclHz else targetSclHz - actual

def ccrFields (n m : Nat) : Word := ((BitVec.ofNat 32 n &&& 0x07) <<< 3) ||| (BitVec.ofNat 32 m &&& 0x07)

/-- One turn of the inner loop, on `best_diff` and `best_ccr`. -/
def tryFields (targetSclHz parentClockHz : Word) (n : Nat) (best : Word × Word) (m : Nat) : Word × Word :=
  let diff := sclDiff targetSclHz parentClockHz n m
  if diff < best.1 then (diff, ccrFields n m) else best

def computeCcr (targetSclHz parentClockHz : Word) : Word :=
  if targetSclHz = 0 ∨ parentClockHz = 0 then 0x11
  else
    let best := (List.range 8).foldl
      (fun best n => (List.range 8).foldl (tryFields targetSclHz parentClockHz n) best) (0xFFFFFFFF, 0x11)
    best.2

/-- What the loops look at, in order. -/
def candidates (target parent : Word) : List (Word × Word) :=
  (List.range 8).flatMap fun n => (List.range 8).map fun m => (sclDiff target parent n m, ccrFields n m)

theorem computeCcr_eq {target parent : Word} (ht : target ≠ 0) (hp : parent ≠ 0) :
    computeCcr target parent =
      ((candidates target parent).foldl (keepBest fun c => c.1.toNat) (0xFFFFFFFF, 0x11)).2 := by
  rw [computeCcr, if_neg (not_or.mpr ⟨ht, hp⟩), candidates, List.foldl_flatMap]
  simp only [List.foldl_map]
  rfl

theorem toNat_divisor {n m : Nat} (hn : n < 8) (hm : m < 8) : (divisor n m).toNat = 10 * 2^n * (m+1) := by
  have h : ∀ n m : Fin 8, (divisor n m).toNat = 10 * 2^n.val * (m.val+1) := by decide
  exact h ⟨n, hn⟩ ⟨m, hm⟩

theorem toNat_actualScl (parent : Word) {n m : Nat} (hn : n < 8) (hm : m < 8) :
    (actualScl parent n m).toNat = parent.toNat / (10 * 2^n * (m+1)) := by
  rw [actualScl, BitVec.toNat_udiv, toNat_divisor hn hm]

theorem toNat_sclDiff (target parent : Word) {n m : Nat} (hn : n < 8) (hm : m < 8) :
    (sclDiff target parent n m).toNat =
      Int.natAbs ((parent.toNat / (10 * 2^n * (m+1)) : Nat) - (target.toNat : Int)) := by
  rw [← toNat_actualScl parent hn hm]
  unfold sclDiff
  simp only
  split
  · rename_i h
    rw [BitVec.toNat_sub_of_le (BitVec.le_of_lt h)]
    have : target.toNat < (actualScl parent n m).toNat := h
    omega
  · rename_i h
    have h : actualScl parent n m ≤ target := BitVec.not_lt.mp h
    rw [BitVec.toNat_sub_of_le h]
    have : (actualScl parent n m).toNat ≤ target.toNat := h
    omega

/-- The fields come out of the value again. -/
theorem ccrFields_spec {n m : Nat} (hn : n < 8) (hm : m < 8) :
    ccrFields n m < 64 ∧ (ccrFields n m >>> 3).toNat = n ∧ (ccrFields n m &&& 7).toNat = m := by
  have h : ∀ n m : Fin 8,
      ccrFields n m < 64 ∧ (ccrFields n m >>> 3).toNat = n.val ∧ (ccrFields n m &&& 7).toNat = m.val := by
    decide
  exact h ⟨n, hn⟩ ⟨m, hm⟩

theorem mem_candidates {target parent : Word} {c : Word × Word} :
    c ∈ candidates target parent ↔ ∃ n < 8, ∃ m < 8, c = (sclDiff target parent n m, ccrFields n m) := by
  simp only [candidates, List.mem_flatMap, List.mem_map, List.mem_range]
  constructor
  · rintro ⟨n, hn, m, hm, rfl⟩
    exact ⟨n, hn, m, hm, rfl⟩
  · rintro ⟨n, hn, m, hm, rfl⟩
    exact ⟨n, hn, m, hm, rfl⟩

/-- The fields that are kept, also where no rate comes closer than the value
that the search starts with. -/
theorem computeCcr_fields {target parent : Word} (ht : target ≠ 0) (hp : parent ≠ 0) :
    ∃ n < 8, ∃ m < 8, computeCcr target parent = ccrFields n m ∧
      ∀ n' < 8, ∀ m' < 8, (sclDiff target parent n m).toNat ≤ (sclDiff target parent n' m').toNat := by
  rw [computeCcr_eq ht hp]
  obtain ⟨-, hall⟩ := score_foldl_le (fun c : Word × Word => c.1.toNat) (0xFFFFFFFF, 0x11) (candidates target parent)
  rcases foldl_mem (fun c : Word × Word => c.1.toNat) (0xFFFFFFFF, 0x11) (candidates target parent) with hbest | hbest
  · rw [hbest] at hall ⊢
    refine ⟨2, by decide, 1, by decide, rfl, ?_⟩
    intro n hn m hm
    have h := hall _ (mem_candidates.mpr ⟨n, hn, m, hm, rfl⟩)
    have hmax : (sclDiff target parent 2 1).toNat ≤ 0xFFFFFFFF := Nat.le_of_lt_succ (BitVec.isLt _)
    exact hmax.trans h
  · obtain ⟨n, hn, m, hm, he⟩ := mem_candidates.mp hbest
    rw [he] at hall ⊢
    exact ⟨n, hn, m, hm, rfl, fun n' hn' m' hm' => hall _ (mem_candidates.mpr ⟨n', hn', m', hm', rfl⟩)⟩

/-- The divider that is returned is a best one of all, and nothing wraps on the
way to it. -/
theorem compute_ccr_best (target parent : Word) (ht : target ≠ 0) (hp : parent ≠ 0) :
    let ccr := computeCcr target parent
    let scl (n m : Nat) : Nat := parent.toNat / (10 * 2^n * (m+1))
    let away (n m : Nat) : Nat := Int.natAbs (scl n m - (target.toNat : Int))
    ccr < 64 ∧ (∀ n < 8, ∀ m < 8, away (ccr >>> 3).toNat (ccr &&& 7).toNat ≤ away n m) ∧
      ∀ n < 8, ∀ m < 8, (divisor n m).toNat = 10 * 2^n * (m+1) ∧ (actualScl parent n m).toNat = scl n m ∧
        (sclDiff target parent n m).toNat = away n m := by
  intro ccr scl away
  obtain ⟨n, hn, m, hm, hccr, hbest⟩ := computeCcr_fields ht hp
  obtain ⟨hlt, hn', hm'⟩ := ccrFields_spec hn hm
  have hdiff {n m : Nat} (hn : n < 8) (hm : m < 8) : (sclDiff target parent n m).toNat = away n m :=
    toNat_sclDiff target parent hn hm
  have hccr : ccr = ccrFields n m := hccr
  refine ⟨?_, ?_, fun i hi j hj => ⟨toNat_divisor hi hj, toNat_actualScl parent hi hj, hdiff hi hj⟩⟩
  · rw [hccr]
    exact hlt
  · intro i hi j hj
    rw [hccr, hn', hm', ← hdiff hn hm, ← hdiff hi hj]
    exact hbest i hi j hj

theorem compute_ccr_best_fast_mode :
    computeCcr 400000 24000000 = 0x05 ∧ ∀ n < 8, ∀ m < 8,
      Int.natAbs (((24000000 : Word).toNat / (10 * 2^0 * (5+1)) : Nat) - ((400000 : Word).toNat : Int)) ≤
        Int.natAbs (((24000000 : Word).toNat / (10 * 2^n * (m+1)) : Nat) - ((400000 : Word).toNat : Int)) := by
  have hccr : computeCcr 400000 24000000 = 0x05 := by decide +kernel
  refine ⟨hccr, ?_⟩
  have h := (compute_ccr_best 400000 24000000 (by decide) (by decide)).2.1
  rw [hccr] at h
  exact h

end Twi

namespace SpiDma

/-- The loop of the second mode: how often the rate is halved, where that may be
done `room` times more. -/
def halvings (targetHz : Word) : Nat → Word → Nat
  | 0, _ => 0
  | room+1, cur => if cur > targetHz then halvings targetHz room (cur >>> 1) + 1 else 0

/-- `set_frequency` on the CCR register. There is no result where it divides by
zero. -/
def setFrequency (ccr targetHz parentHz : Word) : Option Word :=
  if targetHz = 0 then some ccr
  else
    let parentHz := if parentHz = 0 then 200000000 else parentHz
    let denominator := 2 * targetHz
    if denominator = 0 then none
    else
      let div := parentHz / denominator
      if div ≥ 1 ∧ div ≤ 256 then some (div - 1)
      else
        let cdr1 := BitVec.ofNat 32 (halvings targetHz 15 parentHz)
        some ((1#32 <<< 12) ||| ((cdr1 &&& 0x0F) <<< 8))

/-- What the controller divides its parent clock by. -/
def clockDivider (ccr : Word) : Nat :=
  if ccr.getLsbD 12 then 2^((ccr >>> 8) &&& 0x0F).toNat else 2 * ((ccr &&& 0xFF).toNat + 1)

def Encodable (divider : Nat) : Prop := (∃ cdr2 ≤ 255, divider = 2 * (cdr2 + 1)) ∨ ∃ cdr1 ≤ 15, divider = 2^cdr1

/-- The parent clock, of which zero stands for the default. -/
def parentClock (parentHz : Word) : Nat := if parentHz = 0 then 200000000 else parentHz.toNat

/-- The value that is written keeps the clock at the target or below it, if any
divider does. -/
def NeverOverclocks (targetHz parentHz : Word) : Prop :=
  ∀ old, ∃ ccr, setFrequency old targetHz parentHz = some ccr ∧
    ((∃ divider, Encodable divider ∧ (parentClock parentHz : ℚ) / divider ≤ targetHz.toNat) →
      (parentClock parentHz : ℚ) / clockDivider ccr ≤ targetHz.toNat)

theorem halvings_spec (target : Word) (room : Nat) (cur : Word) :
    halvings target room cur ≤ room ∧
      (cur.toNat / 2^halvings target room cur ≤ target.toNat ∨ halvings target room cur = room) ∧
      ∀ k < halvings target room cur, target.toNat < cur.toNat / 2^k := by
  induction room generalizing cur with
  | zero => simp [halvings]
  | succ room ih =>
    unfold halvings
    split
    · rename_i h
      have h : target.toNat < cur.toNat := h
      have hhalf (k : Nat) : (cur >>> 1).toNat / 2^k = cur.toNat / 2^(k+1) := by
        rw [BitVec.toNat_ushiftRight, Nat.shiftRight_eq_div_pow, Nat.div_div_eq_div_mul, Nat.pow_one, Nat.pow_succ']
      obtain ⟨hle, hstop, hbefore⟩ := ih (cur >>> 1)
      refine ⟨by omega, ?_, ?_⟩
      · rw [hhalf] at hstop
        exact hstop.imp_right (congrArg (· + 1))
      · intro k hk
        cases k with
        | zero => simpa using h
        | succ k =>
          rw [← hhalf]
          exact hbefore k (by omega)
    · rename_i h
      have h : cur.toNat ≤ target.toNat := Nat.le_of_not_lt h
      simpa using h

theorem clock_le_iff (parent target : Nat) {divider : Nat} (hd : 0 < divider) :
    (parent : ℚ) / divider ≤ target ↔ parent ≤ target * divider := by
  rw [div_le_iff₀ (by exact_mod_cast hd)]
  exact_mod_cast Iff.rfl

theorem clockDivider_linear {div : Word} (h1 : 1 ≤ div) (h256 : div ≤ 256) : clockDivider (div - 1) = 2 * div.toNat := by
  have h1 : 1 ≤ div.toNat := h1
  have h256 : div.toNat ≤ 256 := h256
  have hsub : (div - 1).toNat = div.toNat - 1 := BitVec.toNat_sub_of_le h1
  have hbit : (div - 1).getLsbD 12 = false := Nat.testBit_lt_two_pow (by omega)
  have hmask : ((div - 1) &&& 0xFF).toNat = (div - 1).toNat % 2^8 := by
    rw [BitVec.toNat_and]
    exact Nat.and_two_pow_sub_one_eq_mod _ 8
  rw [clockDivider, hbit, hmask, hsub, if_neg (by decide)]
  omega

theorem clockDivider_power {cdr1 : Nat} (h : cdr1 ≤ 15) :
    clockDivider ((1#32 <<< 12) ||| ((BitVec.ofNat 32 cdr1 &&& 0x0F) <<< 8)) = 2^cdr1 := by
  have hall : ∀ k : Fin 16, clockDivider ((1#32 <<< 12) ||| ((BitVec.ofNat 32 k &&& 0x0F) <<< 8)) = 2^k.val := by decide
  exact hall ⟨cdr1, by omega⟩

theorem clockDivider_pos (ccr : Word) : 0 < clockDivider ccr := by
  unfold clockDivider
  split
  · exact Nat.two_pow_pos _
  · omega

/-- Of all dividers the largest power is the last resort. -/
theorem exists_encodable_iff (parent target : Nat) :
    (∃ divider, Encodable divider ∧ (parent : ℚ) / divider ≤ target) ↔ parent ≤ target * 2^15 := by
  constructor
  · rintro ⟨divider, he, hle⟩
    have hd : 0 < divider ∧ divider ≤ 2^15 := by
      rcases he with ⟨k, hk, rfl⟩ | ⟨k, hk, rfl⟩
      · omega
      · exact ⟨Nat.two_pow_pos k, Nat.pow_le_pow_right (by decide) hk⟩
    rw [clock_le_iff parent target hd.1] at hle
    exact hle.trans (Nat.mul_le_mul_left target hd.2)
  · intro h
    exact ⟨2^15, .inr ⟨15, le_rfl, rfl⟩, (clock_le_iff parent target (by decide)).mpr h⟩

/-- A rate below twice the target is halved once at most. -/
theorem halved_once {target p : Word} (h : p.toNat < 2 * target.toNat) :
    p.toNat ≤ target.toNat * 2^halvings target 15 p := by
  obtain ⟨-, hstop, hbefore⟩ := halvings_spec target 15 p
  have hle : halvings target 15 p ≤ 1 := by
    by_contra hgt
    have := hbefore 1 (by omega)
    omega
  interval_cases hk : halvings target 15 p
  · simpa using hstop
  · omega

/-- Halving rounds down, which is all that can go wrong with the second mode. -/
theorem halved_iff {target p : Word} (ht : 0 < target.toNat) :
    (p.toNat ≤ target.toNat * 2^15 → p.toNat ≤ target.toNat * 2^halvings target 15 p) ↔
      ∀ k < 15, p.toNat / 2^k = target.toNat → 2^k ∣ p.toNat := by
  obtain ⟨hle, hstop, hbefore⟩ := halvings_spec target 15 p
  constructor
  · intro h k hk hq
    have hstops : halvings target 15 p = k := by
      rcases Nat.lt_trichotomy (halvings target 15 p) k with hlt | heq | hgt
      · -- A later quotient would be half of this one, or less.
        obtain ⟨d, rfl⟩ := Nat.exists_eq_add_of_lt hlt
        have hlow := hstop.resolve_right (by omega)
        rw [Nat.add_assoc, Nat.pow_add, ← Nat.div_div_eq_div_mul, Nat.pow_succ'] at hq
        have hpos : 0 < 2^d := Nat.two_pow_pos d
        have hhalf : p.toNat / 2^halvings target 15 p / (2 * 2^d) ≤ p.toNat / 2^halvings target 15 p / 2 :=
          Nat.div_le_div_left (by omega) (by decide)
        omega
      · exact heq
      · have := hbefore k hgt
        omega
    have hfit : p.toNat ≤ target.toNat * 2^15 := by
      have hlt : p.toNat < 2^k * (target.toNat + 1) := by
        rw [← hq]
        exact Nat.lt_mul_div_succ _ (Nat.two_pow_pos k)
      have hk14 : 2^k ≤ 2^14 := Nat.pow_le_pow_right (by decide) (by omega)
      have := Nat.mul_le_mul_right (target.toNat + 1) hk14
      omega
    have hup := h hfit
    have hdown := Nat.div_mul_le_self p.toNat (2^k)
    rw [hstops] at hup
    rw [hq] at hdown
    exact Dvd.intro_left _ (Nat.le_antisymm hdown hup)
  · intro h hfit
    rcases hstop with hlow | hcap
    · rcases Nat.lt_or_eq_of_le hlow with hlt | heq
      · have hup := Nat.lt_mul_div_succ p.toNat (Nat.two_pow_pos (halvings target 15 p))
        have := Nat.mul_le_mul_left (2^halvings target 15 p) (Nat.succ_le_of_lt hlt)
        rw [Nat.mul_comm target.toNat]
        exact hup.le.trans this
      · by_cases hcap : halvings target 15 p = 15
        · rw [hcap]
          exact hfit
        · obtain ⟨q, hq⟩ := h _ (by omega) heq
          have hpos : 0 < 2^halvings target 15 p := Nat.two_pow_pos _
          rw [← heq, Nat.div_mul_cancel ⟨q, hq⟩]
    · rw [hcap]
      exact hfit

/-- The parent clock as the word that the code computes with. -/
theorem exists_parentWord (parent : Word) :
    ∃ p : Word, (if parent = 0 then 200000000 else parent) = p ∧ p.toNat = parentClock parent := by
  refine ⟨_, rfl, ?_⟩
  unfold parentClock
  split <;> rfl

/-- The two divider modes, with the test that selects them. The denominator
wraps at 2^32. -/
def Mode (target p : Word) (divider : Nat) : Prop :=
  let div := p.toNat / (2 * target.toNat % 2^32)
  (1 ≤ div ∧ div ≤ 256 ∧ divider = 2 * div) ∨ (¬ (1 ≤ div ∧ div ≤ 256) ∧ divider = 2^halvings target 15 p)

/-- What `set_frequency` writes, for a parent clock of `p`. -/
theorem setFrequency_cases {target parent p : Word} (hp : (if parent = 0 then 200000000 else parent) = p)
    (ht : target ≠ 0) (old : Word) :
    (target.toNat = 2^31 ∧ setFrequency old target parent = none) ∨
      (target.toNat ≠ 2^31 ∧ ∃ ccr, setFrequency old target parent = some ccr ∧
        Mode target p (clockDivider ccr)) := by
  have hden : 2 * target = 0 ↔ target.toNat = 2^31 := by
    have h0 : target.toNat ≠ 0 := fun h => ht (BitVec.eq_of_toNat_eq h)
    have := target.isLt
    rw [← BitVec.toNat_inj, BitVec.toNat_mul]
    simp only [BitVec.ofNat_eq_ofNat, BitVec.toNat_ofNat]
    omega
  have hdiv : (p / (2 * target)).toNat = p.toNat / (2 * target.toNat % 2^32) := by
    rw [BitVec.toNat_udiv, BitVec.toNat_mul]
    rfl
  rw [setFrequency, if_neg ht]
  simp only [hp]
  by_cases hz : 2 * target = 0
  · left
    exact ⟨hden.mp hz, by rw [if_pos hz]⟩
  · right
    refine ⟨fun h => hz (hden.mpr h), ?_⟩
    rw [if_neg hz]
    simp only [Mode, ← hdiv]
    by_cases hd : p / (2 * target) ≥ 1 ∧ p / (2 * target) ≤ 256
    · rw [if_pos hd]
      exact ⟨_, rfl, .inl ⟨hd.1, hd.2, clockDivider_linear hd.1 hd.2⟩⟩
    · rw [if_neg hd]
      exact ⟨_, rfl, .inr ⟨hd, clockDivider_power (halvings_spec target 15 p).1⟩⟩

/-- When the divider of a mode is slow enough. -/
theorem Mode.safe_iff {target p : Word} {divider : Nat} (h : Mode target p divider) (ht : 0 < target.toNat) :
    (p.toNat ≤ target.toNat * 2^15 → p.toNat ≤ target.toNat * divider) ↔
      (p.toNat < 2 * target.toNat ∨ (p.toNat / (2 * target.toNat) ≤ 256 ∧ 2 * target.toNat ∣ p.toNat) ∨
        (256 < p.toNat / (2 * target.toNat) ∧ ∀ k < 15, p.toNat / 2^k = target.toNat → 2^k ∣ p.toNat)) := by
  have hp := p.isLt
  by_cases hlow : p.toNat < 2 * target.toNat
  · refine iff_of_true (fun _ => ?_) (.inl hlow)
    rcases h with ⟨h1, -, rfl⟩ | ⟨-, rfl⟩
    · rw [← Nat.mul_assoc, Nat.mul_comm target.toNat]
      exact hlow.le.trans (Nat.le_mul_of_pos_right _ h1)
    · exact halved_once hlow
  · have hwrap : 2 * target.toNat % 2^32 = 2 * target.toNat := Nat.mod_eq_of_lt (by omega)
    have hone : 1 ≤ p.toNat / (2 * target.toNat) := Nat.div_pos (by omega) (by omega)
    rw [Mode, hwrap] at h
    rcases h with ⟨-, h256, rfl⟩ | ⟨hbig, rfl⟩
    · have hfit : p.toNat ≤ target.toNat * 2^15 := by
        have hlt := Nat.lt_mul_div_succ p.toNat (show 0 < 2 * target.toNat by omega)
        have h257 := hlt.trans_le (Nat.mul_le_mul_left (2 * target.toNat) (Nat.succ_le_succ h256))
        omega
      have hdown := Nat.div_mul_le_self p.toNat (2 * target.toNat)
      have hcomm : target.toNat * (2 * (p.toNat / (2 * target.toNat))) =
          p.toNat / (2 * target.toNat) * (2 * target.toNat) := by
        rw [Nat.mul_left_comm, ← Nat.mul_assoc, Nat.mul_comm]
      rw [hcomm]
      constructor
      · intro hup
        exact .inr (.inl ⟨h256, Dvd.intro_left _ (Nat.le_antisymm hdown (hup hfit))⟩)
      · rintro (h | ⟨-, hd⟩ | ⟨h, -⟩) -
        · omega
        · rw [Nat.div_mul_cancel hd]
        · omega
    · have hgt : 256 < p.toNat / (2 * target.toNat) := by omega
      rw [halved_iff ht]
      constructor
      · exact fun h => .inr (.inr ⟨hgt, h⟩)
      · rintro (h | ⟨h, -⟩ | ⟨-, h⟩)
        · omega
        · omega
        · exact h

/-- The bus is never driven faster than asked exactly where no division of the
parent clock loses a remainder that matters. -/
theorem set_frequency_never_overclocks_iff (target parent : Word) (ht : target ≠ 0) :
    NeverOverclocks target parent ↔ target.toNat ≠ 2^31 ∧
      (parentClock parent < 2 * target.toNat ∨
        (parentClock parent / (2 * target.toNat) ≤ 256 ∧ 2 * target.toNat ∣ parentClock parent) ∨
        (256 < parentClock parent / (2 * target.toNat) ∧
          ∀ k < 15, parentClock parent / 2^k = target.toNat → 2^k ∣ parentClock parent)) := by
  obtain ⟨p, hp, hclock⟩ := exists_parentWord parent
  have hpos : 0 < target.toNat := Nat.pos_of_ne_zero fun h => ht (BitVec.eq_of_toNat_eq h)
  have hsafe (ccr : Word) :
      ((∃ divider, Encodable divider ∧ (parentClock parent : ℚ) / divider ≤ target.toNat) →
        (parentClock parent : ℚ) / clockDivider ccr ≤ target.toNat) ↔
      (p.toNat ≤ target.toNat * 2^15 → p.toNat ≤ target.toNat * clockDivider ccr) := by
    rw [exists_encodable_iff, clock_le_iff _ _ (clockDivider_pos ccr), hclock]
  rw [← hclock]
  constructor
  · intro h
    obtain ⟨ccr, hset, hnever⟩ := h 0
    rcases setFrequency_cases hp ht 0 with ⟨-, hnone⟩ | ⟨hne, ccr', hset', hmode⟩
    · rw [hnone] at hset
      cases hset
    · obtain rfl : ccr' = ccr := Option.some.inj (hset'.symm.trans hset)
      exact ⟨hne, (hmode.safe_iff hpos).mp ((hsafe ccr').mp hnever)⟩
  · rintro ⟨hne, hcond⟩ old
    rcases setFrequency_cases hp ht old with ⟨he, -⟩ | ⟨-, ccr, hset, hmode⟩
    · exact absurd he hne
    · exact ⟨ccr, hset, (hsafe ccr).mpr ((hmode.safe_iff hpos).mpr hcond)⟩

/-- The default clocks of `init`. -/
theorem imu_clock_kept : NeverOverclocks 25000000 200000000 :=
  (set_frequency_never_overclocks_iff 25000000 200000000 (by decide)).mpr (by decide)

/-- 30 MHz out of 200 MHz: the divider is rounded down to 2 * 3. -/
theorem rounded_down_divider_overclocks :
    setFrequency 0 30000000 200000000 = some 2 ∧ clockDivider 2 = 6 ∧ ¬ NeverOverclocks 30000000 200000000 := by
  have hset : setFrequency 0 30000000 200000000 = some 2 := by decide
  have hdiv : clockDivider 2 = 6 := by decide
  refine ⟨hset, hdiv, ?_⟩
  intro h
  obtain ⟨ccr, hccr, hnever⟩ := h 0
  obtain rfl : 2 = ccr := Option.some.inj (hset.symm.trans hccr)
  have hparent : parentClock 200000000 = 200000000 := by decide
  have htarget : (30000000 : Word).toNat = 30000000 := by decide
  rw [exists_encodable_iff, hdiv, clock_le_iff _ _ (by decide), hparent, htarget] at hnever
  omega

end SpiDma
end IoProcessor.Hal
