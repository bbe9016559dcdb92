import Mathlib.Order.Interval.Finset.Nat
import Mathlib.Algebra.BigOperators.Group.List.Basic
import IoProcessor.Host.Elf

/-! What fw_size.py says about a parsed image, and its exit status. A section is
counted to the region that it begins in. -/
namespace IoProcessor.Host.FwSize
open Library

/-- REGIONS. -/
inductive RegionName where
  | itcm | dtcm | sramShared | sramCode | dramInit | dramBuf
  deriving DecidableEq, Repr

namespace RegionName

def origin : RegionName → Nat
  | .itcm => 0x00000000
  | .dtcm => 0x00080000
  | .sramShared => 0x07130000
  | .sramCode => 0x07140000
  | .dramInit => 0x48000000
  | .dramBuf => 0x48100000

def length : RegionName → Nat
  | .itcm => 64 * 1024
  | .dtcm => 64 * 1024
  | .sramShared => 64 * 1024
  | .sramCode => 256 * 1024
  | .dramInit => 1 * 1024 * 1024
  | .dramBuf => 15 * 1024 * 1024

def all : List RegionName := [.itcm, .dtcm, .sramShared, .sramCode, .dramInit, .dramBuf]

end RegionName

def regionOf (addr : Nat) : Option RegionName :=
  RegionName.all.find? fun r => r.origin ≤ addr ∧ addr < r.origin + r.length

structure Usage where
  used : Nat
  sections : List Section

structure Analysis where
  usage : RegionName → Usage
  orphans : List Section

/-- SHF_ALLOC is bit 1. -/
def allocSections (elf : Elf) : List Section := elf.sections.filter fun s => s.flags &&& 0x2 ≠ 0 ∧ s.size > 0

def analyzeSection (a : Analysis) (s : Section) : Analysis :=
  match regionOf s.addr with
  | none => { a with orphans := a.orphans ++ [s] }
  | some r =>
    { a with usage := Function.update a.usage r ⟨(a.usage r).used + s.size, (a.usage r).sections ++ [s]⟩ }

def analyze (elf : Elf) : Analysis := (allocSections elf).foldl analyzeSection ⟨fun _ => ⟨0, []⟩, []⟩

/-- The remark behind a region. -/
inductive Flag where
  | fits | over90 | overflow
  deriving DecidableEq, Repr

/-- The fraction is compared without its rounding, which is finer than a byte. -/
def flagOf (used length : Nat) : Flag :=
  if used > length then .overflow else if 10 * used > 9 * length then .over90 else .fits

def resourceTable : Name := [0x2E, 0x72, 0x65, 0x73, 0x6F, 0x75, 0x72, 0x63, 0x65, 0x5F, 0x74, 0x61, 0x62, 0x6C, 0x65]
def estackName : Name := [0x5F, 0x65, 0x73, 0x74, 0x61, 0x63, 0x6B]
def ebssName : Name := [0x5F, 0x65, 0x62, 0x73, 0x73]

/-- The distance from `_ebss` to `_estack`, where neither is missing or zero. -/
def headroom (elf : Elf) : Option Int :=
  match elf.symbol estackName, elf.symbol ebssName with
  | some estack, some ebss => if estack ≠ 0 ∧ ebss ≠ 0 then some (estack - ebss) else none
  | _, _ => none

/-- What `report` returns, and of what it prints the remarks. -/
structure Report where
  status : Nat
  flags : List (RegionName × Flag)
  deriving DecidableEq, Repr

def report (elf : Elf) : Report :=
  let analysis := analyze elf
  let status := if elf.sections.any (·.name = resourceTable) then 0 else 1
  let flags := RegionName.all.map fun r => (r, flagOf (analysis.usage r).used r.length)
  let status := if flags.any (·.2 = .overflow) then 1 else status
  let status := if analysis.orphans ≠ [] then 1 else status
  let status :=
    match headroom elf with
    | some free => if free < 4096 then 1 else status
    | none => status
  ⟨status, flags⟩

structure RegionFigures where
  region : RegionName
  origin : Nat
  length : Nat
  used : Nat
  free : Int
  deriving DecidableEq, Repr

structure Summary where
  file : String
  entry : Nat
  regions : List RegionFigures
  loadSegments : List (Nat × Nat × Nat × Nat)
  deriving DecidableEq, Repr

def asDict (elf : Elf) : Summary :=
  let analysis := analyze elf
  { file := elf.path
    entry := elf.entry
    regions := RegionName.all.map fun r =>
      ⟨r, r.origin, r.length, (analysis.usage r).used, (r.length : Int) - (analysis.usage r).used⟩
    loadSegments := (elf.segments.filter (·.type = 1)).map fun s => (s.vaddr, s.paddr, s.filesz, s.memsz) }

/-- A path, which is UTF-8 and so can be printed, with what the file holds, or one
that raises an `OSError`. -/
structure File where
  path : String
  content : Option Blob

def File.parse (f : File) : Except Exc Elf :=
  match f.content with
  | some blob => elf32 f.path blob
  | none => .error .osError

/-- The loop of `main`: the status, the files with an error, and the files that
were analysed. -/
structure Progress where
  status : Nat
  errors : List (String × Exc)
  reports : List (String × Report)
  results : List Summary
  deriving DecidableEq, Repr

def mainStep (json : Bool) (p : Progress) (f : File) : Except Exc Progress :=
  match f.parse with
  | .error e => if e.caught then .ok { p with status := 2, errors := p.errors ++ [(f.path, e)] } else .error e
  | .ok elf =>
    if json then .ok { p with results := p.results ++ [asDict elf] }
    else .ok { p with status := p.status ||| (report elf).status, reports := p.reports ++ [(f.path, report elf)] }

/-- `main` on the paths that it has been given or found. -/
def main (json : Bool) (paths : List File) : Except Exc Progress :=
  if paths = [] then .ok ⟨2, [], [], []⟩ else paths.foldlM (mainStep json) ⟨0, [], [], []⟩

theorem RegionName.mem_all (r : RegionName) : r ∈ all := by cases r <;> simp [all]

section Regions
variable {addr : Nat} {r : RegionName}

/-- No two regions share an address. -/
theorem region_unique {r' : RegionName} (h : r.origin ≤ addr ∧ addr < r.origin + r.length)
    (h' : r'.origin ≤ addr ∧ addr < r'.origin + r'.length) : r = r' := by
  cases r <;> cases r' <;> simp only [RegionName.origin, RegionName.length] at h h' <;> first | rfl | omega

theorem regionOf_eq_some : regionOf addr = some r ↔ r.origin ≤ addr ∧ addr < r.origin + r.length := by
  constructor
  · intro h
    simpa using List.find?_some h
  · intro h
    obtain ⟨r', hr'⟩ : ∃ r', regionOf addr = some r' := by
      rw [← Option.isSome_iff_exists, regionOf, List.find?_isSome]
      exact ⟨r, r.mem_all, decide_eq_true h⟩
    rw [hr', region_unique h (by simpa using List.find?_some hr')]

end Regions

/-- The bytes of the allocated sections that begin in a region. -/
def beginningIn (r : RegionName) (sections : List Section) : Nat :=
  ((sections.filter fun s => regionOf s.addr = some r).map (·.size)).sum

/-- One section more. -/
theorem analyzeSection_spec (a : Analysis) (s : Section) :
    (analyzeSection a s).orphans = a.orphans ++ [s].filter (fun s => regionOf s.addr = none) ∧
      ∀ r, ((analyzeSection a s).usage r).used = (a.usage r).used + beginningIn r [s] := by
  unfold analyzeSection beginningIn
  split
  · rename_i h
    simp [h]
  · rename_i r' h
    refine ⟨by simp [h], fun r => ?_⟩
    by_cases hr : r = r'
    · subst hr
      simp [h]
    · have hne : r' ≠ r := Ne.symm hr
      simp [h, hr, hne]

theorem analyze_fold (a : Analysis) (sections : List Section) :
    (sections.foldl analyzeSection a).orphans = a.orphans ++ sections.filter (fun s => regionOf s.addr = none) ∧
      ∀ r, ((sections.foldl analyzeSection a).usage r).used = (a.usage r).used + beginningIn r sections := by
  induction sections generalizing a with
  | nil => simp [beginningIn]
  | cons s sections ih =>
    obtain ⟨horphans, hused⟩ := ih (analyzeSection a s)
    obtain ⟨hs, hsused⟩ := analyzeSection_spec a s
    refine ⟨?_, fun r => ?_⟩
    · rw [List.foldl_cons, horphans, hs, List.append_assoc, ← List.filter_append]
      rfl
    · have hcons : beginningIn r (s :: sections) = beginningIn r [s] + beginningIn r sections := by
        rw [beginningIn, beginningIn, beginningIn, ← List.sum_append, ← List.map_append, ← List.filter_append]
        rfl
      rw [List.foldl_cons, hused, hsused, hcons, Nat.add_assoc]

theorem analyze_orphans (elf : Elf) :
    (analyze elf).orphans = (allocSections elf).filter fun s => regionOf s.addr = none := by
  rw [analyze, (analyze_fold _ _).1, List.nil_append]

theorem analyze_used (elf : Elf) (r : RegionName) :
    ((analyze elf).usage r).used = beginningIn r (allocSections elf) := by
  rw [analyze, (analyze_fold _ _).2, Nat.zero_add]

/-- The grounds on which `report` returns 1. -/
def Refused (elf : Elf) : Prop :=
  (∀ s ∈ elf.sections, s.name ≠ resourceTable) ∨ (∃ r, r.length < beginningIn r (allocSections elf)) ∨
    (∃ s ∈ allocSections elf, regionOf s.addr = none) ∨ ∃ free, headroom elf = some free ∧ free < 4096

theorem flagOf_eq_overflow {used length : Nat} : flagOf used length = .overflow ↔ length < used := by
  unfold flagOf
  split
  · simp_all
  · split <;> simp_all

theorem any_overflow_iff (elf : Elf) :
    (RegionName.all.map fun r => (r, flagOf ((analyze elf).usage r).used r.length)).any (·.2 = .overflow) = true ↔
      ∃ r, r.length < beginningIn r (allocSections elf) := by
  rw [List.any_map, List.any_eq_true]
  simp only [Function.comp, decide_eq_true_eq, flagOf_eq_overflow, analyze_used]
  constructor
  · rintro ⟨r, -, hr⟩
    exact ⟨r, hr⟩
  · rintro ⟨r, hr⟩
    exact ⟨r, r.mem_all, hr⟩

theorem orphans_iff (elf : Elf) : (analyze elf).orphans ≠ [] ↔ ∃ s ∈ allocSections elf, regionOf s.addr = none := by
  rw [analyze_orphans, ne_eq, List.filter_eq_nil_iff]
  simp

theorem raised_status (p : Prop) [Decidable p] (status : Nat) : (if p then 1 else status) ≠ 0 ↔ p ∨ status ≠ 0 := by
  by_cases hp : p <;> simp [hp]

theorem headroom_status (free : Option Int) (status : Nat) :
    (match free with
      | some free => if free < 4096 then 1 else status
      | none => status) ≠ 0 ↔ (∃ n, free = some n ∧ n < 4096) ∨ status ≠ 0 := by
  cases free with
  | none => simp
  | some n => simp [raised_status]

theorem report_status_iff (elf : Elf) : (report elf).status ≠ 0 ↔ Refused elf := by
  have hmissing : (if elf.sections.any (·.name = resourceTable) then 0 else 1) ≠ 0 ↔
      ∀ s ∈ elf.sections, s.name ≠ resourceTable := by
    simp
  unfold report Refused
  dsimp only
  rw [headroom_status, raised_status, orphans_iff, raised_status, any_overflow_iff, hmissing]
  constructor
  · rintro (hfree | horphan | hover | hmiss)
    · exact .inr (.inr (.inr hfree))
    · exact .inr (.inr (.inl horphan))
    · exact .inr (.inl hover)
    · exact .inl hmiss
  · rintro (hmiss | hover | horphan | hfree)
    · exact .inr (.inr (.inr hmiss))
    · exact .inr (.inr (.inl hover))
    · exact .inr (.inl horphan)
    · exact .inl hfree

/-- The section lies wholly in the region. -/
def Section.Within (s : Section) (r : RegionName) : Prop := r.origin ≤ s.addr ∧ s.addr + s.size ≤ r.origin + r.length

/-- The bytes of allocated sections that lie in a region. -/
def bytesIn (r : RegionName) (elf : Elf) : Nat :=
  ((allocSections elf).map fun s =>
    (Finset.Ico s.addr (s.addr + s.size) ∩ Finset.Ico r.origin (r.origin + r.length)).card).sum

/-- An image that is passed fits, and the figures for it are right. -/
def PassesOnlyFitting (elf : Elf) : Prop :=
  (report elf).status = 0 →
    (∀ s ∈ allocSections elf, ∃ r, s.Within r) ∧ ∀ r, ((analyze elf).usage r).used = bytesIn r elf

/-- No allocated section runs out of the region that it begins in. -/
def EndsInside (elf : Elf) : Prop :=
  ∀ s ∈ allocSections elf, ∀ r, regionOf s.addr = some r → s.addr + s.size ≤ r.origin + r.length

theorem size_pos {elf : Elf} {s : Section} (h : s ∈ allocSections elf) : 0 < s.size := by
  have hs := (List.mem_filter.mp h).2
  simp only [decide_eq_true_eq] at hs
  exact hs.2

/-- A section that lies in a region has all its bytes in that region alone. -/
theorem card_overlap {s : Section} {r : RegionName} (hw : s.Within r) (hs : 0 < s.size) (r' : RegionName) :
    (Finset.Ico s.addr (s.addr + s.size) ∩ Finset.Ico r'.origin (r'.origin + r'.length)).card =
      if regionOf s.addr = some r' then s.size else 0 := by
  obtain ⟨hlow, hhigh⟩ := hw
  rw [Finset.Ico_inter_Ico, Nat.card_Ico]
  have hr : regionOf s.addr = some r := regionOf_eq_some.mpr ⟨hlow, by omega⟩
  rw [hr]
  by_cases h : r' = r
  · rw [h, if_pos rfl]
    omega
  · rw [if_neg fun he => h (Option.some.inj he).symm]
    cases r <;> cases r' <;> simp only [RegionName.origin, RegionName.length, not_true_eq_false] at * <;> omega

theorem beginningIn_eq (r : RegionName) (sections : List Section) :
    beginningIn r sections = (sections.map fun s => if regionOf s.addr = some r then s.size else 0).sum := by
  induction sections with
  | nil => rfl
  | cons s sections ih =>
    rw [beginningIn] at ih ⊢
    rw [List.filter_cons, List.map_cons, List.sum_cons, ← ih]
    split
    · rename_i h
      rw [decide_eq_true_iff] at h
      rw [if_pos h, List.map_cons, List.sum_cons]
    · rename_i h
      rw [decide_eq_true_iff] at h
      rw [if_neg h, Nat.zero_add]

/-- `report` passes only what fits, with the right figures, exactly when it has
other grounds or no section runs out of its region. -/
theorem passes_only_fitting_iff (elf : Elf) : PassesOnlyFitting elf ↔ Refused elf ∨ EndsInside elf := by
  have hstatus : (report elf).status = 0 ↔ ¬ Refused elf := by rw [← report_status_iff, not_not]
  rw [PassesOnlyFitting, hstatus]
  constructor
  · intro h
    by_cases hrefused : Refused elf
    · exact .inl hrefused
    · refine .inr fun s hs r hr => ?_
      obtain ⟨r', hlow, hhigh⟩ := (h hrefused).1 s hs
      have hpos := size_pos hs
      have hsame : r' = r := region_unique ⟨hlow, by omega⟩ (regionOf_eq_some.mp hr)
      rwa [hsame] at hhigh
  · rintro (hrefused | hends) hpassed
    · exact absurd hrefused hpassed
    · have hwithin (s : Section) (hs : s ∈ allocSections elf) : ∃ r, s.Within r := by
        rcases hr : regionOf s.addr with _ | r
        · exact absurd (.inr (.inr (.inl ⟨s, hs, hr⟩))) hpassed
        · exact ⟨r, (regionOf_eq_some.mp hr).1, hends s hs r hr⟩
      refine ⟨hwithin, fun r => ?_⟩
      rw [analyze_used, beginningIn_eq, bytesIn]
      congr 1
      refine List.map_congr_left fun s hs => ?_
      obtain ⟨r', hr'⟩ := hwithin s hs
      exact (card_overlap hr' (size_pos hs) r).symm

/-- Little-endian fields, each a size with a value. -/
def fieldBytes (fields : List (Nat × Nat)) : Blob := fields.flatMap fun f => Memory.littleEndian f.1 (BitVec.ofNat 32 f.2)

/-- A file of a header, section headers and what the last section holds, which
is the names. -/
def fileOf (sections : List (List Nat)) (names : Blob) : Blob :=
  magic ++ [1, 1, 1, 0, 0, 0, 0, 0, 0, 0, 0, 0] ++
    fieldBytes ([(2, 2), (2, 243), (4, 1), (4, 0x07140000), (4, 0), (4, 52), (4, 0), (2, 52), (2, 32), (2, 0)] ++
      [(2, 40), (2, sections.length), (2, sections.length - 1)]) ++
    fieldBytes (sections.flatMap (·.map (4, ·))) ++ names

/-- A resource table in SRAM_CODE, and 32 bytes of data in the last 16 of DTCM. -/
def overhanging : Blob :=
  fileOf
    [[0, 0, 0, 0, 0, 0, 0, 0, 0, 0], [1, 1, 2, 0x07140000, 52, 64, 0, 0, 4, 0],
      [1, 8, 3, 0x0008FFF0, 52, 32, 0, 0, 4, 0], [0, 3, 0, 0, 212, 17, 0, 0, 1, 0]]
    ([0] ++ resourceTable ++ [0])

/-- It is passed, and its data do not fit. -/
theorem overhanging_passes : ¬ ∀ path blob elf, elf32 path blob = .ok elf → PassesOnlyFitting elf := by
  intro h
  obtain ⟨elf, helf, hrun⟩ := exists_elf "overhanging.elf" overhanging
    (fun elf => decide ((report elf).status = 0 ∧ ∃ s ∈ allocSections elf, s.addr = 0x0008FFF0 ∧ s.size = 32))
    (by decide +kernel)
  rw [decide_eq_true_iff] at hrun
  obtain ⟨hpassed, s, hs, haddr, hsize⟩ := hrun
  obtain ⟨r, hlow, hhigh⟩ := (h _ _ elf helf hpassed).1 s hs
  rw [haddr] at hlow
  rw [haddr, hsize] at hhigh
  cases r <;> simp only [RegionName.origin, RegionName.length] at hlow hhigh <;> omega

end IoProcessor.Host.FwSize
