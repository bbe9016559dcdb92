import IoProcessor.Host.FwSize

/-! How fw_size.py ends over a list of files: its exit status in the two output
modes, and what a file that cannot be parsed does to the others. -/
namespace IoProcessor.Host.FwSize
open Library

/-- The file opens and its content is parsed, or `main` handles the exception. -/
def File.Survived (f : File) : Prop := ∀ e, f.parse = .error e → e.caught = true

/-- One turn of the loop, on a file that `main` survives. -/
def advance (json : Bool) (p : Progress) (f : File) : Progress :=
  match f.parse with
  | .error e => { p with status := 2, errors := p.errors ++ [(f.path, e)] }
  | .ok elf =>
    if json then { p with results := p.results ++ [asDict elf] }
    else { p with status := p.status ||| (report elf).status, reports := p.reports ++ [(f.path, report elf)] }

theorem mainStep_returns (json : Bool) (p : Progress) (f : File) :
    Returns Exc.Foreign f.Survived (advance json p f) (mainStep json p f) := by
  unfold mainStep advance
  rcases hf : f.parse with e | elf
  · cases he : e.caught
    · exact .inr ⟨fun h => Bool.false_ne_true (he.symm.trans (h e hf)), e, he, by simp [he]⟩
    · refine .inl ⟨fun e' he' => ?_, by simp [he]⟩
      rwa [← Except.error.inj (hf.symm.trans he')]
  · refine .inl ⟨fun e he => ?_, ?_⟩
    · exact nomatch hf.symm.trans he
    · cases json <;> rfl

/-- The loop ends for files that `main` survives, and for no others. -/
theorem main_returns {files : List File} (h : files ≠ []) (json : Bool) :
    Returns Exc.Foreign (∀ f ∈ files, f.Survived) (files.foldl (advance json) ⟨0, [], [], []⟩) (main json files) := by
  rw [main, if_neg h]
  exact .foldlM (fun p f _ => mainStep_returns json p f) _

def File.elf (f : File) : Option Elf := f.parse.toOption

/-- What is said of a file that cannot be parsed. -/
def File.failure (f : File) : Option (String × Exc) :=
  match f.parse with
  | .error e => some (f.path, e)
  | .ok _ => none

/-- The file makes the status nonzero. -/
def File.Fails (json : Bool) (f : File) : Prop :=
  match f.parse with
  | .error _ => True
  | .ok elf => json = false ∧ Refused elf

theorem advance_status (json : Bool) (p : Progress) (f : File) :
    (advance json p f).status ≠ 0 ↔ p.status ≠ 0 ∨ f.Fails json := by
  unfold advance File.Fails
  rcases f.parse with e | elf
  · simp
  · cases json
    · simp only [Bool.false_eq_true, if_false, ne_eq, Nat.or_eq_zero_iff, true_and, ← report_status_iff]
      exact not_and_or
    · simp

theorem fold_status (json : Bool) (files : List File) (p : Progress) :
    (files.foldl (advance json) p).status ≠ 0 ↔ p.status ≠ 0 ∨ ∃ f ∈ files, f.Fails json := by
  induction files generalizing p with
  | nil => simp
  | cons f files ih => rw [List.foldl_cons, ih, advance_status, or_assoc, List.exists_mem_cons_iff]

/-- The lines for the files that cannot be parsed, and the reports or the
results of all others, in the order of the files. -/
structure Covers (json : Bool) (files : List File) (p q : Progress) : Prop where
  errors : q.errors = p.errors ++ files.filterMap File.failure
  reports : q.reports = p.reports ++
    if json then [] else files.filterMap fun f => f.elf.map fun elf => (f.path, report elf)
  results : q.results = p.results ++ if json then files.filterMap fun f => f.elf.map asDict else []

theorem advance_covers (json : Bool) (p : Progress) (f : File) : Covers json [f] p (advance json p f) := by
  rcases hf : f.parse with e | elf
  · have hfailure : f.failure = some (f.path, e) := by rw [File.failure, hf]
    have helf : f.elf = none := by rw [File.elf, hf]; rfl
    rw [advance, hf]
    exact ⟨by simp [hfailure], by simp [helf], by simp [helf]⟩
  · have hfailure : f.failure = none := by rw [File.failure, hf]
    have helf : f.elf = some elf := by rw [File.elf, hf]; rfl
    rw [advance, hf]
    cases json
    · exact ⟨by simp [hfailure], by simp [helf], by simp⟩
    · exact ⟨by simp [hfailure], by simp, by simp [helf]⟩

theorem Covers.append {json : Bool} {xs ys : List File} {p q r : Progress} (h : Covers json xs p q)
    (h' : Covers json ys q r) : Covers json (xs ++ ys) p r := by
  constructor
  · rw [h'.errors, h.errors, List.append_assoc, List.filterMap_append]
  · rw [h'.reports, h.reports, List.append_assoc, List.filterMap_append]
    cases json <;> rfl
  · rw [h'.results, h.results, List.append_assoc, List.filterMap_append]
    cases json <;> rfl

theorem fold_covers (json : Bool) (files : List File) (p : Progress) :
    Covers json files p (files.foldl (advance json) p) := by
  induction files generalizing p with
  | nil => constructor <;> cases json <;> simp
  | cons f files ih => exact (advance_covers json p f).append (ih (advance json p f))

/-- A file that parses. -/
structure Image where
  path : String
  blob : Blob
  elf : Elf
  parsed : elf32 path blob = .ok elf

def Image.file (i : Image) : File := ⟨i.path, some i.blob⟩

theorem Image.parse_file (i : Image) : i.file.parse = .ok i.elf := i.parsed

/-- The defects for which the documentation promises a nonzero status. -/
def Documented (elf : Elf) : Prop :=
  (∃ s ∈ allocSections elf, regionOf s.addr = none) ∨ (∃ r, 9 * r.length < 10 * beginningIn r (allocSections elf)) ∨
    (∀ s ∈ elf.sections, s.name ≠ resourceTable) ∨
    ∃ estack ebss, elf.symbol estackName = some estack ∧ elf.symbol ebssName = some ebss ∧ estack < ebss + 4096

theorem headroom_eq {elf : Elf} {free : Int} (h : headroom elf = some free) :
    ∃ estack ebss : Nat,
      elf.symbol estackName = some estack ∧ elf.symbol ebssName = some ebss ∧ free = estack - ebss := by
  unfold headroom at h
  split at h
  · rename_i estack ebss hestack hebss
    split at h
    · exact ⟨estack, ebss, hestack, hebss, (Option.some.inj h).symm⟩
    · exact nomatch h
  · exact nomatch h

/-- `report` returns 1 only for documented defects. -/
theorem Refused.documented {elf : Elf} (h : Refused elf) : Documented elf := by
  rcases h with hmissing | ⟨r, hr⟩ | horphan | ⟨free, hfree, hlow⟩
  · exact .inr (.inr (.inl hmissing))
  · exact .inr (.inl ⟨r, by omega⟩)
  · exact .inl horphan
  · obtain ⟨estack, ebss, hestack, hebss, rfl⟩ := headroom_eq hfree
    exact .inr (.inr (.inr ⟨estack, ebss, hestack, hebss, by omega⟩))

/-- The status follows the documentation in both output modes. -/
def ExitFollows (images : List Image) : Prop :=
  ∃ text json, main false (images.map Image.file) = .ok text ∧ main true (images.map Image.file) = .ok json ∧
    (text.status ≠ 0 ↔ ∃ i ∈ images, Documented i.elf) ∧ (json.status ≠ 0 ↔ ∃ i ∈ images, Documented i.elf) ∧
    text.status = json.status

theorem Image.fails_iff (i : Image) (json : Bool) : i.file.Fails json ↔ json = false ∧ Refused i.elf := by
  rw [File.Fails, i.parse_file]

/-- What `main` returns for images. -/
theorem main_images {images : List Image} (h : images ≠ []) (json : Bool) :
    ∃ p, main json (images.map Image.file) = .ok p ∧
      (p.status ≠ 0 ↔ json = false ∧ ∃ i ∈ images, Refused i.elf) := by
  have hsurvived : ∀ f ∈ images.map Image.file, f.Survived := by
    rw [List.forall_mem_map]
    intro i _ e he
    exact nomatch i.parse_file.symm.trans he
  rcases main_returns (mt List.map_eq_nil_iff.mp h) json with ⟨-, hp⟩ | ⟨hnot, -⟩
  · refine ⟨_, hp, ?_⟩
    rw [fold_status]
    constructor
    · rintro (hstart | ⟨f, hf, hfails⟩)
      · exact absurd rfl hstart
      · obtain ⟨i, hi, rfl⟩ := List.mem_map.mp hf
        obtain ⟨hjson, hrefused⟩ := (i.fails_iff json).mp hfails
        exact ⟨hjson, i, hi, hrefused⟩
    · rintro ⟨hjson, i, hi, hrefused⟩
      exact .inr ⟨i.file, List.mem_map_of_mem hi, (i.fails_iff json).mpr ⟨hjson, hrefused⟩⟩
  · exact absurd hsurvived hnot

/-- The status follows the documentation exactly for images without a documented
defect: with `--json` no defect has any effect on it. -/
theorem exit_follows_iff (images : List Image) : ExitFollows images ↔ images ≠ [] ∧ ∀ i ∈ images, ¬ Documented i.elf := by
  by_cases hempty : images = []
  · subst hempty
    refine iff_of_false ?_ fun h => h.1 rfl
    rintro ⟨text, json, htext, -, hdocumented, -⟩
    rw [← Except.ok.inj htext] at hdocumented
    obtain ⟨i, hi, -⟩ := hdocumented.mp (by decide)
    exact nomatch hi
  obtain ⟨text, htext, htextStatus⟩ := main_images hempty false
  obtain ⟨json, hjson, hjsonStatus⟩ := main_images hempty true
  have hzero : json.status = 0 := by
    by_contra h
    exact nomatch (hjsonStatus.mp h).1
  constructor
  · rintro ⟨-, json', -, hjson', -, hdocumented, -⟩
    rw [← Except.ok.inj (hjson.symm.trans hjson'), hzero] at hdocumented
    exact ⟨hempty, fun i hi hd => hdocumented.mpr ⟨i, hi, hd⟩ rfl⟩
  · rintro ⟨-, hnone⟩
    have htextZero : text.status = 0 := by
      by_contra h
      obtain ⟨-, i, hi, hrefused⟩ := htextStatus.mp h
      exact hnone i hi hrefused.documented
    have hno : ¬ ∃ i ∈ images, Documented i.elf := fun ⟨i, hi, hd⟩ => hnone i hi hd
    exact ⟨text, json, htext, hjson, iff_of_false (fun h => h htextZero) hno, iff_of_false (fun h => h hzero) hno,
      htextZero.trans hzero.symm⟩

/-- An image with one unnamed section, so without a resource table. -/
def bare : Blob := fileOf [[0, 3, 0, 0, 92, 1, 0, 0, 1, 0]] [0]

/-- It has status 1, and with `--json` status 0. -/
theorem bare_exits : ∃ i : Image, i.blob = bare ∧ Documented i.elf ∧ ¬ ExitFollows [i] := by
  obtain ⟨elf, helf, hrun⟩ := exists_elf "bare.elf" bare (fun elf => decide (∀ s ∈ elf.sections, s.name ≠ resourceTable))
    (by decide +kernel)
  rw [decide_eq_true_iff] at hrun
  have hdocumented : Documented elf := .inr (.inr (.inl hrun))
  refine ⟨⟨"bare.elf", bare, elf, helf⟩, rfl, hdocumented, ?_⟩
  rintro ⟨-, json, -, hjson, -, hdoc, -⟩
  have hmain : main true [Image.file ⟨"bare.elf", bare, elf, helf⟩] = .ok ⟨0, [], [], [asDict elf]⟩ := by
    change mainStep true _ _ >>= _ = _
    rw [mainStep, Image.parse_file]
    rfl
  rw [List.map_singleton, hmain] at hjson
  rw [← Except.ok.inj hjson] at hdoc
  exact hdoc.mpr ⟨_, List.mem_singleton_self _, hdocumented⟩ rfl

/-- Readable files. -/
def readable (files : List (String × Blob)) : List File := files.map fun f => ⟨f.1, some f.2⟩

/-- `main` ends without an exception: it names every file that cannot be parsed,
analyses all others, and has a nonzero status where there is such a file. -/
def Survives (json : Bool) (files : List (String × Blob)) : Prop :=
  ∃ p, main json (readable files) = .ok p ∧ Covers json (readable files) ⟨0, [], [], []⟩ p ∧
    ((∃ f ∈ readable files, f.elf = none) → p.status ≠ 0)

theorem survived_iff (path : String) (blob : Blob) : File.Survived ⟨path, some blob⟩ ↔ Handled blob := by
  rcases elf32_cases path blob with ⟨hrejected, m, hm⟩ | ⟨hnot, h⟩
  · refine iff_of_true (fun e he => ?_) (.inl hrejected)
    rw [← Except.error.inj (hm.symm.trans he)]
    rfl
  · constructor
    · intro hsurvived
      rcases h with ⟨hintact, -⟩ | ⟨-, e, hforeign, he⟩
      · exact .inr hintact
      · exact absurd (hforeign.symm.trans (hsurvived e he)) Bool.false_ne_true
    · rintro (hrejected | hintact) e he
      · exact absurd hrejected hnot
      · obtain ⟨elf, helf⟩ := h.ok_iff.mpr hintact
        exact nomatch helf.symm.trans he

theorem readable_survived_iff (files : List (String × Blob)) :
    (∀ f ∈ readable files, f.Survived) ↔ ∀ f ∈ files, Handled f.2 := by
  rw [readable, List.forall_mem_map]
  exact forall₂_congr fun f _ => survived_iff f.1 f.2

theorem File.fails_of_none {f : File} (h : f.elf = none) (json : Bool) : f.Fails json := by
  unfold File.Fails
  rcases hf : f.parse with e | elf
  · trivial
  · rw [File.elf, hf] at h
    exact nomatch h

/-- A list of files is survived exactly if each of them is handled. -/
theorem survives_iff (json : Bool) (files : List (String × Blob)) :
    (∀ path blob, ((∃ elf, elf32 path blob = .ok elf) ∨ ∃ m, elf32 path blob = .error (.elfError m)) ↔ Handled blob) ∧
      (Survives json files ↔ ∀ f ∈ files, Handled f.2) := by
  refine ⟨elf32_handled_iff, ?_⟩
  by_cases hempty : files = []
  · subst hempty
    refine iff_of_true ⟨⟨2, [], [], []⟩, rfl, ?_, ?_⟩ (by simp)
    · cases json <;> exact ⟨rfl, rfl, rfl⟩
    · exact fun _ => by decide
  rw [← readable_survived_iff]
  rcases main_returns (mt List.map_eq_nil_iff.mp hempty) json with ⟨hsurvived, hp⟩ | ⟨hnot, e, -, he⟩
  · refine iff_of_true ⟨_, hp, fold_covers _ _ _, ?_⟩ hsurvived
    rintro ⟨f, hf, hnone⟩
    exact (fold_status _ _ _).mpr (.inr ⟨f, hf, File.fails_of_none hnone json⟩)
  · refine iff_of_false ?_ hnot
    rintro ⟨p, hp, -, -⟩
    exact nomatch hp.symm.trans he

/-- A file that ends behind the magic number ends `main` as well. -/
theorem magic_alone : elf32 "short.elf" magic = .error .indexError ∧ ∀ json, ¬ Survives json [("short.elf", magic)] := by
  refine ⟨rfl, fun json => ?_⟩
  rintro ⟨p, hp, -⟩
  have hmain : main json (readable [("short.elf", magic)]) = .error .indexError := rfl
  exact nomatch hmain.symm.trans hp

end IoProcessor.Host.FwSize
