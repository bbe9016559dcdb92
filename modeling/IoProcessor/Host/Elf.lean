import IoProcessor.Library.Returns
import IoProcessor.Library.Struct

/-! `Elf32` of fw_size.py, over any bytes. Every offset, count and index in it
comes from the file. -/
namespace IoProcessor.Host.FwSize
open Library

inductive Exc where
  | elfError (message : String)
  | osError
  | structError
  | indexError
  | valueError
  deriving DecidableEq, Repr

/-- The exceptions that `main` handles. -/
def Exc.caught : Exc → Bool
  | .elfError _ | .osError => true
  | .structError | .indexError | .valueError => false

abbrev Blob := List Byte

/-- A field of a format whose fields have these sizes. -/
def field (sizes : List Nat) (blob : Blob) (offset i : Nat) : Nat :=
  Struct.value ((blob.drop (offset + (sizes.take i).sum)).take (sizes.getD i 0))

/-- `struct.unpack_from`, with the fields by their position. -/
def unpackFrom (sizes : List Nat) (blob : Blob) (offset : Nat) : Except Exc (Nat → Nat) :=
  if offset + sizes.sum ≤ blob.length then .ok (field sizes blob offset) else .error .structError

/-- An element of a list. -/
def item {α : Type} (xs : List α) (i : Nat) : Except Exc α :=
  match xs[i]? with
  | some x => .ok x
  | none => .error .indexError

/-- The formats III, HHHHH, IIIIIIIIII, IIIIIIII and IIIBBH. -/
def offsetsFormat : List Nat := [4, 4, 4]
def countsFormat : List Nat := [2, 2, 2, 2, 2]
def sectionFormat : List Nat := [4, 4, 4, 4, 4, 4, 4, 4, 4, 4]
def segmentFormat : List Nat := [4, 4, 4, 4, 4, 4, 4, 4]
def symbolFormat : List Nat := [4, 4, 4, 1, 1, 2]

structure Header where
  entry : Nat
  phoff : Nat
  shoff : Nat
  phentsize : Nat
  phnum : Nat
  shentsize : Nat
  shnum : Nat
  shstrndx : Nat
  deriving DecidableEq, Repr

def magic : Blob := [0x7F, 0x45, 0x4C, 0x46]

def parseHeader (path : String) (blob : Blob) : Except Exc Header :=
  if blob.take 4 ≠ magic then .error (.elfError (path ++ ": not an ELF file"))
  else
    match blob[4]? with
    | none => .error .indexError
    | some cls =>
      if cls ≠ 1 then .error (.elfError (path ++ ": only 32-bit ELF is supported"))
      else
        match blob[5]? with
        | none => .error .indexError
        | some data =>
          if data ≠ 1 then .error (.elfError (path ++ ": only little-endian ELF is supported"))
          else do
            let offsets ← unpackFrom offsetsFormat blob 24
            let counts ← unpackFrom countsFormat blob 42
            .ok ⟨offsets 0, offsets 1, offsets 2, counts 0, counts 1, counts 2, counts 3, counts 4⟩

/-- A name, in bytes. Names are only compared with ASCII texts, and decoding
makes no ASCII character of other bytes. -/
abbrev Name := List Byte

def cstr (blob : Blob) (tableOffset index : Nat) : Except Exc Name :=
  let rest := blob.drop (tableOffset + index)
  if 0 ∈ rest then .ok (rest.takeWhile (· ≠ 0)) else .error .valueError

/-- A section; `type` is sh_type. -/
structure Section where
  name : Name
  type : Nat
  flags : Nat
  addr : Nat
  offset : Nat
  size : Nat
  link : Nat
  entsize : Nat
  deriving DecidableEq, Repr

/-- The dictionary of a section; sh_info and sh_addralign are left out. -/
def sectionFrom (name : Name) (f : Nat → Nat) : Section := ⟨name, f 1, f 2, f 3, f 4, f 5, f 6, f 9⟩

def parseSections (blob : Blob) (h : Header) : Except Exc (List Section) := do
  let raw ← (List.range h.shnum).mapM fun i => unpackFrom sectionFormat blob (h.shoff + i * h.shentsize)
  let shstr ← item raw h.shstrndx
  raw.mapM fun f => do
    let name ← cstr blob (shstr 4) (f 0)
    .ok (sectionFrom name f)

/-- A segment; `type` is p_type. -/
structure Segment where
  type : Nat
  offset : Nat
  vaddr : Nat
  paddr : Nat
  filesz : Nat
  memsz : Nat
  flags : Nat
  deriving DecidableEq, Repr

/-- The dictionary of a segment; p_align is left out. -/
def segmentFrom (f : Nat → Nat) : Segment := ⟨f 0, f 1, f 2, f 3, f 4, f 5, f 6⟩

def parseSegments (blob : Blob) (h : Header) : Except Exc (List Segment) :=
  (List.range h.phnum).mapM fun i => do
    let f ← unpackFrom segmentFormat blob (h.phoff + i * h.phentsize)
    .ok (segmentFrom f)

def symtab : Name := [0x2E, 0x73, 0x79, 0x6D, 0x74, 0x61, 0x62]

/-- A symbol with a name, or none. -/
def parseSymbol (blob : Blob) (strtab base : Nat) : Except Exc (List (Name × Nat)) := do
  let f ← unpackFrom symbolFormat blob base
  if f 0 ≠ 0 then do
    let name ← cstr blob strtab (f 0)
    .ok [(name, f 1)]
  else .ok []

def parseSymtab (blob : Blob) (sections : List Section) (s : Section) : Except Exc (List (Name × Nat)) :=
  if s.name ≠ symtab then .ok []
  else do
    let strings ← item sections s.link
    let found ← (List.range (s.size / 16)).mapM fun i => parseSymbol blob strings.offset (s.offset + i * 16)
    .ok found.flatten

/-- The symbols in the order in which the dictionary gets them. -/
def parseSymbols (blob : Blob) (sections : List Section) : Except Exc (List (Name × Nat)) := do
  let found ← sections.mapM (parseSymtab blob sections)
  .ok found.flatten

structure Elf where
  path : String
  entry : Nat
  sections : List Section
  segments : List Segment
  symbols : List (Name × Nat)
  deriving DecidableEq, Repr

/-- A symbol's value, the last one of that name. -/
def Elf.symbol (elf : Elf) (name : Name) : Option Nat := (elf.symbols.reverse.find? (·.1 = name)).map (·.2)

def parseBody (path : String) (blob : Blob) (h : Header) : Except Exc Elf := do
  let sections ← parseSections blob h
  let segments ← parseSegments blob h
  let symbols ← parseSymbols blob sections
  .ok ⟨path, h.entry, sections, segments, symbols⟩

/-- The constructor, on what the file holds. -/
def elf32 (path : String) (blob : Blob) : Except Exc Elf := do
  let h ← parseHeader path blob
  parseBody path blob h

/-- An exception that `main` does not handle. -/
def Exc.Foreign (e : Exc) : Prop := e.caught = false

section Reads
variable (blob : Blob)

theorem unpackFrom_returns (sizes : List Nat) (offset : Nat) :
    Returns Exc.Foreign (offset + sizes.sum ≤ blob.length) (field sizes blob offset) (unpackFrom sizes blob offset) :=
  .of_ite rfl

theorem item_returns {α : Type} (g : Nat → α) (n i : Nat) :
    Returns Exc.Foreign (i < n) (g i) (item ((List.range n).map g) i) := by
  rw [item, List.getElem?_map]
  by_cases h : i < n
  · exact .inl ⟨h, by rw [List.getElem?_range h]; rfl⟩
  · exact .inr ⟨h, .indexError, rfl, by rw [List.getElem?_eq_none (by rw [List.length_range]; omega)]; rfl⟩

/-- A zero byte ends the text that begins at an offset. -/
def Terminated (start : Nat) : Prop := 0 ∈ blob.drop start

def textAt (start : Nat) : Name := (blob.drop start).takeWhile (· ≠ 0)

theorem cstr_returns (tableOffset index : Nat) :
    Returns Exc.Foreign (Terminated blob (tableOffset + index)) (textAt blob (tableOffset + index))
      (cstr blob tableOffset index) :=
  Returns.of_ite (p := 0 ∈ blob.drop (tableOffset + index)) rfl

end Reads

section Tables
variable (blob : Blob)

/-- The header of a file that is long enough. -/
def headerOf : Header where
  entry := field offsetsFormat blob 24 0
  phoff := field offsetsFormat blob 24 1
  shoff := field offsetsFormat blob 24 2
  phentsize := field countsFormat blob 42 0
  phnum := field countsFormat blob 42 1
  shentsize := field countsFormat blob 42 2
  shnum := field countsFormat blob 42 3
  shstrndx := field countsFormat blob 42 4

variable (h : Header)

def sectionField (i : Nat) : Nat → Nat := field sectionFormat blob (h.shoff + i * h.shentsize)

/-- Where the name of a section begins. -/
def nameStart (i : Nat) : Nat := sectionField blob h h.shstrndx 4 + sectionField blob h i 0

def sectionOf (i : Nat) : Section := sectionFrom (textAt blob (nameStart blob h i)) (sectionField blob h i)

def segmentOf (i : Nat) : Segment := segmentFrom (field segmentFormat blob (h.phoff + i * h.phentsize))

/-- The field of a symbol of a section. -/
def symbolField (s : Section) (k : Nat) : Nat → Nat := field symbolFormat blob (s.offset + k * 16)

def symbolOf (s : Section) (k : Nat) : List (Name × Nat) :=
  if symbolField blob s k 0 ≠ 0 then
    [(textAt blob ((sectionOf blob h s.link).offset + symbolField blob s k 0), symbolField blob s k 1)]
  else []

def symbolsOf (s : Section) : List (Name × Nat) :=
  if s.name ≠ symtab then [] else ((List.range (s.size / 16)).map (symbolOf blob h s)).flatten

def elfOf (path : String) : Elf where
  path := path
  entry := h.entry
  sections := (List.range h.shnum).map (sectionOf blob h)
  segments := (List.range h.phnum).map (segmentOf blob h)
  symbols := (((List.range h.shnum).map (sectionOf blob h)).map (symbolsOf blob h)).flatten

/-- The symbols of a section and their names lie in the file. -/
structure SymbolsInFile (s : Section) : Prop where
  link : s.link < h.shnum
  entries : ∀ k < s.size / 16, s.offset + k * 16 + 16 ≤ blob.length
  names : ∀ k < s.size / 16, symbolField blob s k 0 ≠ 0 →
    Terminated blob ((sectionOf blob h s.link).offset + symbolField blob s k 0)

/-- Every table and every text that the header leads to lies in the file. -/
structure TablesInFile : Prop where
  sections : ∀ i < h.shnum, h.shoff + i * h.shentsize + 40 ≤ blob.length
  shstrndx : h.shstrndx < h.shnum
  names : ∀ i < h.shnum, Terminated blob (nameStart blob h i)
  segments : ∀ i < h.phnum, h.phoff + i * h.phentsize + 32 ≤ blob.length
  symbols : ∀ i < h.shnum, (sectionOf blob h i).name = symtab → SymbolsInFile blob h (sectionOf blob h i)

theorem parseSections_returns :
    Returns Exc.Foreign
      ((∀ i < h.shnum, h.shoff + i * h.shentsize + 40 ≤ blob.length) ∧ h.shstrndx < h.shnum ∧
        ∀ i < h.shnum, Terminated blob (nameStart blob h i))
      ((List.range h.shnum).map (sectionOf blob h)) (parseSections blob h) := by
  have hraw : Returns Exc.Foreign (∀ i ∈ List.range h.shnum, h.shoff + i * h.shentsize + 40 ≤ blob.length)
      ((List.range h.shnum).map (sectionField blob h))
      ((List.range h.shnum).mapM fun i => unpackFrom sectionFormat blob (h.shoff + i * h.shentsize)) :=
    .mapM fun i _ => unpackFrom_returns blob sectionFormat _
  have hnames : Returns Exc.Foreign (∀ i ∈ List.range h.shnum, Terminated blob (nameStart blob h i))
      ((List.range h.shnum).map (sectionOf blob h))
      (((List.range h.shnum).map (sectionField blob h)).mapM fun f => do
        let name ← cstr blob (sectionField blob h h.shstrndx 4) (f 0)
        .ok (sectionFrom name f)) := by
    rw [List.mapM_map]
    exact .mapM fun i _ => (cstr_returns blob _ _).map fun name => sectionFrom name (sectionField blob h i)
  refine (hraw.bind fun _ => (item_returns (sectionField blob h) h.shnum h.shstrndx).bind fun _ => hnames).congr ?_
  simp only [List.mem_range]

theorem parseSegments_returns :
    Returns Exc.Foreign (∀ i < h.phnum, h.phoff + i * h.phentsize + 32 ≤ blob.length)
      ((List.range h.phnum).map (segmentOf blob h)) (parseSegments blob h) := by
  have heach (i : Nat) : Returns Exc.Foreign (h.phoff + i * h.phentsize + 32 ≤ blob.length) (segmentOf blob h i)
      (unpackFrom segmentFormat blob (h.phoff + i * h.phentsize) >>= fun f => .ok (segmentFrom f)) :=
    (unpackFrom_returns blob segmentFormat _).map segmentFrom
  refine (Returns.mapM fun i _ => heach i).congr ?_
  simp only [List.mem_range]

theorem parseSymbol_returns (s : Section) (k : Nat) :
    Returns Exc.Foreign
      (s.offset + k * 16 + 16 ≤ blob.length ∧
        (symbolField blob s k 0 ≠ 0 → Terminated blob ((sectionOf blob h s.link).offset + symbolField blob s k 0)))
      (symbolOf blob h s k) (parseSymbol blob (sectionOf blob h s.link).offset (s.offset + k * 16)) := by
  refine (unpackFrom_returns blob symbolFormat _).bind fun _ => ?_
  change Returns Exc.Foreign _ _ (if symbolField blob s k 0 ≠ 0 then _ else _)
  unfold symbolOf
  split
  · rename_i hname
    have hcstr := cstr_returns blob (sectionOf blob h s.link).offset (symbolField blob s k 0)
    exact (hcstr.map fun name => [(name, symbolField blob s k 1)]).congr (by simp [hname])
  · rename_i hname
    exact (Returns.pure _).congr (by simp [hname])

theorem parseSymtab_returns (s : Section) :
    Returns Exc.Foreign (s.name = symtab → SymbolsInFile blob h s) (symbolsOf blob h s)
      (parseSymtab blob ((List.range h.shnum).map (sectionOf blob h)) s) := by
  unfold parseSymtab symbolsOf
  split
  · rename_i hname
    exact (Returns.pure _).congr (by simp [hname])
  · rename_i hname
    have hentries := Returns.mapM fun k (_ : k ∈ List.range (s.size / 16)) => parseSymbol_returns blob h s k
    refine ((item_returns (sectionOf blob h) h.shnum s.link).bind fun _ => hentries.map List.flatten).congr ?_
    simp only [List.mem_range, not_not.mp hname, true_imp_iff]
    constructor
    · rintro ⟨hlink, hall⟩
      exact ⟨hlink, fun k hk => (hall k hk).1, fun k hk => (hall k hk).2⟩
    · rintro ⟨hlink, hentries, hnames⟩
      exact ⟨hlink, fun k hk => ⟨hentries k hk, hnames k hk⟩⟩

/-- Behind the header the constructor returns exactly for a file that holds all
its tables, and raises what `main` does not handle otherwise. -/
theorem parseBody_returns (path : String) :
    Returns Exc.Foreign (TablesInFile blob h) (elfOf blob h path) (parseBody path blob h) := by
  have hsymbols : Returns Exc.Foreign
      (∀ s ∈ (List.range h.shnum).map (sectionOf blob h), s.name = symtab → SymbolsInFile blob h s)
      (((List.range h.shnum).map (sectionOf blob h)).map (symbolsOf blob h)).flatten
      (parseSymbols blob ((List.range h.shnum).map (sectionOf blob h))) :=
    (Returns.mapM fun s _ => parseSymtab_returns blob h s).map List.flatten
  refine ((parseSections_returns blob h).bind fun _ => (parseSegments_returns blob h).bind fun _ =>
    hsymbols.map (Elf.mk path h.entry _ _)).congr ?_
  simp only [List.forall_mem_map, List.mem_range]
  constructor
  · rintro ⟨⟨hsections, hstrings, hnames⟩, hsegments, hsyms⟩
    exact ⟨hsections, hstrings, hnames, hsegments, hsyms⟩
  · rintro ⟨hsections, hstrings, hnames, hsegments, hsyms⟩
    exact ⟨⟨hsections, hstrings, hnames⟩, hsegments, hsyms⟩

end Tables

/-- The file says itself that it is no little-endian 32-bit ELF. -/
def Rejected (blob : Blob) : Prop :=
  blob.take 4 ≠ magic ∨ (∃ cls, blob[4]? = some cls ∧ cls ≠ 1) ∨
    (blob[4]? = some 1 ∧ ∃ data, blob[5]? = some data ∧ data ≠ 1)

/-- It says that it is one, and has its whole header. -/
structure Identified (blob : Blob) : Prop where
  magic : blob.take 4 = magic
  cls : blob[4]? = some 1
  data : blob[5]? = some 1
  header : 52 ≤ blob.length

/-- And it holds all that its header leads to. -/
def Intact (blob : Blob) : Prop := Identified blob ∧ TablesInFile blob (headerOf blob)

/-- The header of a file that passes the three checks. -/
theorem header_returns {blob : Blob} (hmagic : blob.take 4 = magic) (hcls : blob[4]? = some 1) (hdata : blob[5]? = some 1) :
    Returns Exc.Foreign (Identified blob) (headerOf blob) (do
      let offsets ← unpackFrom offsetsFormat blob 24
      let counts ← unpackFrom countsFormat blob 42
      .ok (⟨offsets 0, offsets 1, offsets 2, counts 0, counts 1, counts 2, counts 3, counts 4⟩ : Header)) := by
  refine ((unpackFrom_returns blob offsetsFormat 24).bind fun _ => (unpackFrom_returns blob countsFormat 42).map
    fun counts => Header.mk _ _ _ (counts 0) (counts 1) (counts 2) (counts 3) (counts 4)).congr ?_
  constructor
  · rintro ⟨-, h⟩
    exact ⟨hmagic, hcls, hdata, h⟩
  · intro h
    exact ⟨Nat.le_trans (by decide) h.header, h.header⟩

theorem parseHeader_cases (path : String) (blob : Blob) :
    (Rejected blob ∧ ∃ m, parseHeader path blob = .error (.elfError m)) ∨
      (¬ Rejected blob ∧ Returns Exc.Foreign (Identified blob) (headerOf blob) (parseHeader path blob)) := by
  unfold parseHeader
  by_cases hmagic : blob.take 4 = magic
  · rw [if_neg (not_not.mpr hmagic)]
    rcases hcls : blob[4]? with _ | cls
    · refine .inr ⟨by simp [Rejected, hmagic, hcls], .inr ⟨fun h => ?_, .indexError, rfl, rfl⟩⟩
      exact nomatch hcls.symm.trans h.cls
    dsimp only
    by_cases hone : cls = 1
    · rw [if_neg (not_not.mpr hone)]
      rcases hdata : blob[5]? with _ | data
      · refine .inr ⟨by simp [Rejected, hmagic, hcls, hone, hdata], .inr ⟨fun h => ?_, .indexError, rfl, rfl⟩⟩
        exact nomatch hdata.symm.trans h.data
      dsimp only
      by_cases hlittle : data = 1
      · rw [if_neg (not_not.mpr hlittle)]
        rw [hone] at hcls
        rw [hlittle] at hdata
        exact .inr ⟨by simp [Rejected, hmagic, hcls, hdata], header_returns hmagic hcls hdata⟩
      · rw [if_pos hlittle]
        exact .inl ⟨.inr (.inr ⟨by rw [hcls, hone], data, hdata, hlittle⟩), _, rfl⟩
    · rw [if_pos hone]
      exact .inl ⟨.inr (.inl ⟨cls, hcls, hone⟩), _, rfl⟩
  · rw [if_pos hmagic]
    exact .inl ⟨.inl hmagic, _, rfl⟩

/-- The three ways in which the constructor ends. -/
theorem elf32_cases (path : String) (blob : Blob) :
    (Rejected blob ∧ ∃ m, elf32 path blob = .error (.elfError m)) ∨
      (¬ Rejected blob ∧ Returns Exc.Foreign (Intact blob) (elfOf blob (headerOf blob) path) (elf32 path blob)) := by
  rcases parseHeader_cases path blob with ⟨hrejected, m, hm⟩ | ⟨hrejected, hheader⟩
  · exact .inl ⟨hrejected, m, by rw [elf32, hm]; rfl⟩
  · exact .inr ⟨hrejected, hheader.bind fun _ => parseBody_returns blob (headerOf blob) path⟩

theorem exists_elf (path : String) (blob : Blob) (p : Elf → Bool) (h : (elf32 path blob).toOption.any p = true) :
    ∃ elf, elf32 path blob = .ok elf ∧ p elf = true := by
  rcases helf : elf32 path blob with e | elf
  · rw [helf] at h
    exact nomatch h
  · rw [helf] at h
    exact ⟨elf, rfl, h⟩

/-- The files that the constructor parses or rejects with an `ElfError`. -/
def Handled (blob : Blob) : Prop := Rejected blob ∨ Intact blob

theorem elf32_handled_iff (path : String) (blob : Blob) :
    ((∃ elf, elf32 path blob = .ok elf) ∨ ∃ m, elf32 path blob = .error (.elfError m)) ↔ Handled blob := by
  rcases elf32_cases path blob with ⟨hrejected, m, hm⟩ | ⟨hrejected, h⟩
  · exact iff_of_true (.inr ⟨m, hm⟩) (.inl hrejected)
  · rw [h.ok_iff]
    constructor
    · rintro (hintact | ⟨m, hm⟩)
      · exact .inr hintact
      · rcases h with ⟨-, hok⟩ | ⟨-, e, he, herror⟩
        · exact nomatch hok.symm.trans hm
        · rw [Except.error.inj (herror.symm.trans hm)] at he
          cases he
    · rintro (h | h)
      · exact absurd h hrejected
      · exact .inl h

end IoProcessor.Host.FwSize
