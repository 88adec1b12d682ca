import Mathlib.Data.List.Find
import RtBoot.CString
import RtBoot.RelocTool
import RtBoot.Span

/-!
# The Relocation Tool on Its File

`mips-relocs` maps an executable, collects the `R_MIPS_32` relocations of the sections that are
loaded, and stores their table (`RtBoot.RelocTool`) into the section `.reltable` of the mapping,
which is shared with the file. Then it compares the size of the table with that of the section,
and if the table is not too long it stores the new size into the section header and takes what
was saved off the file size of the first segment that is loaded.

The file is the list of its bytes. With the result goes a record of what was accessed: the
entries of the array `relocs`, and the positions of the file that were stored to. The two loops
over the array have an `unsigned int` index, which starts at `relocs_idx - 1` in the first and may
wrap around in the second.

What the table overwrites is decided by its length, which nothing bounds before the stores are
made. So an encoding that does not fit has been written over what is behind the section by the
time it is refused; and without any relocation the first loop starts outside the array.

## Main results

* `deltaLoop_spec`, `emitLoop_eq`, `emitLoop_of_wrap`: what the two loops access and write.
* `WellFormed.updateHeaders_written`: with a table that fits, the headers are read as they were
  before.
* `WellFormed.writeTable_safe_iff`, `WellFormed.finish_safe_iff`: the law for the parts of the tool.
* `reloc_tool_safe_iff`: when the tool accesses and changes only what it may.
-/

namespace RtBoot

/-! ### Header fields -/

/-- A field of a header: its offset and size in the 32-bit and in the 64-bit class. -/
structure ElfField where
  off32 : ℕ
  size32 : ℕ
  off64 : ℕ
  size64 : ℕ

/-- `is_64` and `is_be`. -/
structure ElfKind where
  is64 : Bool
  isBe : Bool
  deriving DecidableEq

/-- The number that bytes stand for, least significant byte first. -/
def leValue : List (BitVec 8) → ℕ
  | [] => 0
  | b :: bs => b.toNat + 256 * leValue bs

/-- The `n` bytes of a number, least significant byte first. -/
def leBytes : ℕ → ℕ → List (BitVec 8)
  | 0, _ => []
  | n + 1, v => BitVec.ofNat 8 v :: leBytes n (v / 256)

/-- `be32toh` or `le32toh`, and those of the other sizes. -/
def ElfKind.toh (k : ElfKind) (bytes : List (BitVec 8)) : ℕ :=
  leValue (if k.isBe then bytes.reverse else bytes)

/-- `htobe32` or `htole32`, and those of the other sizes. -/
def ElfKind.hto (k : ElfKind) (size v : ℕ) : List (BitVec 8) :=
  if k.isBe then (leBytes size v).reverse else leBytes size v

/-- Where a field of the header at `hdr` lies. -/
def ElfField.span (f : ElfField) (k : ElfKind) (hdr : ℕ) : Span :=
  if k.is64 then ⟨hdr + f.off64, f.size64⟩ else ⟨hdr + f.off32, f.size32⟩

/-- `hdr_field`. -/
def hdrField (k : ElfKind) (elf : List (BitVec 8)) (hdr : ℕ) (f : ElfField) : ℕ :=
  k.toh (slice elf 0 (f.span k hdr))

/-- `set_hdr_field`. -/
def setHdrField (k : ElfKind) (elf : List (BitVec 8)) (hdr : ℕ) (f : ElfField) (v : ℕ) :
    List (BitVec 8) :=
  patch elf (f.span k hdr).start (k.hto (f.span k hdr).size v)

/-- `e_type`, the kind of file. -/
def eType : ElfField := ⟨16, 2, 16, 2⟩
/-- `e_machine`, the target. -/
def eMachine : ElfField := ⟨18, 2, 18, 2⟩
/-- `e_phoff`, where the segment headers are. -/
def ePhoff : ElfField := ⟨28, 4, 32, 8⟩
/-- `e_shoff`, where the section headers are. -/
def eShoff : ElfField := ⟨32, 4, 40, 8⟩
/-- `e_phnum`, the number of segments. -/
def ePhnum : ElfField := ⟨44, 2, 56, 2⟩
/-- `e_shnum`, the number of sections. -/
def eShnum : ElfField := ⟨48, 2, 60, 2⟩
/-- `e_shstrndx`, the section of the names. -/
def eShstrndx : ElfField := ⟨50, 2, 62, 2⟩

/-- `p_type` of a segment. -/
def pType : ElfField := ⟨0, 4, 0, 4⟩
/-- `p_filesz` of a segment. -/
def pFilesz : ElfField := ⟨16, 4, 32, 8⟩

/-- `sh_name`, the position of the name. -/
def shName : ElfField := ⟨0, 4, 0, 4⟩
/-- `sh_type` of a section. -/
def shType : ElfField := ⟨4, 4, 4, 4⟩
/-- `sh_flags` of a section. -/
def shFlags : ElfField := ⟨8, 4, 8, 8⟩
/-- `sh_addr`, the load address. -/
def shAddr : ElfField := ⟨12, 4, 16, 8⟩
/-- `sh_offset`, the place in the file. -/
def shOffset : ElfField := ⟨16, 4, 24, 8⟩
/-- `sh_size` of a section. -/
def shSize : ElfField := ⟨20, 4, 32, 8⟩
/-- `sh_entsize`, the size of an entry. -/
def shEntsize : ElfField := ⟨36, 4, 56, 8⟩

/-- `r_offset`, the address to relocate. -/
def rOffset : ElfField := ⟨0, 4, 0, 8⟩
/-- `r_info`, the symbol and the type. -/
def rInfo : ElfField := ⟨4, 4, 8, 8⟩

/-- The sizes of the headers of the file, of a segment and of a section. -/
def ElfKind.ehdrSize (k : ElfKind) : ℕ := if k.is64 then 64 else 52
/-- The size of a segment header. -/
def ElfKind.phdrSize (k : ElfKind) : ℕ := if k.is64 then 56 else 32
/-- The size of a section header. -/
def ElfKind.shdrSize (k : ElfKind) : ℕ := if k.is64 then 64 else 40

/-! ### Reading the file -/

/-- What ends the tool early: an error that it reports, or an access or a loop that it does not
survive. -/
inductive ToolError
  /-- `Input file is not an ELF`. -/
  | notElf
  /-- `Unrecognised ELF version`. -/
  | version
  /-- `Unrecognised ELF class`. -/
  | elfClass
  /-- `Unrecognised ELF data encoding`. -/
  | dataEncoding
  /-- `Input ELF is not an executable`. -/
  | notExecutable
  /-- `Input ELF does not target MIPS`. -/
  | notMips
  /-- `Unable to find .rel section`. -/
  | noRelSection
  /-- `Unable to find .text base address`. -/
  | noTextBase
  /-- `REL-style reloc in MIPS64 ELF?`. -/
  | relInMips64
  /-- `RELA-style reloc in MIPS32 ELF?`. -/
  | relaInMips32
  /-- `Out of memory`. -/
  | outOfMemory
  /-- `Relocs overflowed .rel section`. -/
  | relocsOverflowed
  /-- `Failed to msync`. -/
  | msync
  /-- The size of a section is divided by an entry size of 0. -/
  | divideByZero
  /-- An access outside the array `relocs`. -/
  | outsideRelocs
  /-- The index of the second loop has wrapped around, and the loop does not end. -/
  | spinning
  deriving DecidableEq

/-- The pointers that `main` forms from the header of the file. -/
structure ElfTables where
  kind : ElfKind
  phdr : ℕ
  shdr : ℕ
  shstrtab : ℕ
  deriving DecidableEq

namespace ElfTables
variable (t : ElfTables) (elf : List (BitVec 8))

/-- `ehdr_field`. -/
def ehdrField (f : ElfField) : ℕ :=
  hdrField t.kind elf 0 f

/-- `&shdr32[i]` or `&shdr64[i]`. -/
def shdrAt (i : ℕ) : ℕ :=
  t.shdr + i * t.kind.shdrSize

/-- `&phdr32[i]` or `&phdr64[i]`. -/
def phdrAt (i : ℕ) : ℕ :=
  t.phdr + i * t.kind.phdrSize

/-- `shdr_field`. -/
def shdrField (i : ℕ) (f : ElfField) : ℕ :=
  hdrField t.kind elf (t.shdrAt i) f

/-- `phdr_field`. -/
def phdrField (i : ℕ) (f : ElfField) : ℕ :=
  hdrField t.kind elf (t.phdrAt i) f

/-- The string at a position of the table of section names. -/
def shstr (i : ℕ) : List (BitVec 8) :=
  (elf.drop (t.shstrtab + i)).takeWhile (· != 0)

end ElfTables

/-- A string literal of the tool. -/
def literal (str : String) : List (BitVec 8) :=
  (ascii str).map UInt8.toBitVec

/-- The checks of the identification, and the pointers formed behind them. -/
def readTables (elf : List (BitVec 8)) : Except ToolError ElfTables := do
  let ident := fun i => elf.getD i 0
  if slice elf 0 ⟨0, 4⟩ ≠ 127 :: literal "ELF" then throw .notElf
  if ident 6 ≠ 1 then throw .version
  let is64 ← if ident 4 = 1 then pure false else if ident 4 = 2 then pure true
    else throw .elfClass
  let isBe ← if ident 5 = 1 then pure false else if ident 5 = 2 then pure true
    else throw .dataEncoding
  let k : ElfKind := ⟨is64, isBe⟩
  if hdrField k elf 0 eType ≠ 2 then throw .notExecutable
  if hdrField k elf 0 eMachine ≠ 8 then throw .notMips
  let shdr := hdrField k elf 0 eShoff
  let shstrndx := hdrField k elf 0 eShstrndx
  pure ⟨k, hdrField k elf 0 ePhoff, shdr,
    hdrField k elf (shdr + shstrndx * k.shdrSize) shOffset⟩

/-- The body of the loop that looks for `.reltable` and `.text`, on `i_rel_shdr` and
`text_base`. -/
def findSection (t : ElfTables) (elf : List (BitVec 8)) (found : Option ℕ × ℕ) (i : ℕ) :
    Option ℕ × ℕ :=
  let name := t.shstr elf (t.shdrField elf i shName)
  if name = literal ".reltable" then (some i, found.2)
  else if name = literal ".text" then (found.1, t.shdrField elf i shAddr)
  else found

/-- The loop over the sections. -/
def findSections (t : ElfTables) (elf : List (BitVec 8)) : Option ℕ × ℕ :=
  (List.range (t.ehdrField elf eShnum)).foldl (findSection t elf) (none, 0)

/-! ### Collecting the relocations -/

/-- What the tool takes from its surroundings: the results of `realloc` and `msync`, `qsort`, and
the byte order of the host. `qsort` works in place. -/
structure ToolEnv where
  realloc : ℕ → Bool
  msync : Bool
  qsort : Qsort
  hostBe : Bool
  length_qsort : ∀ cmp relocs, (qsort cmp relocs).length = relocs.length

/-- The array `relocs` while it is being filled: the entries up to `relocs_idx`, `relocs_sz`, and
the indices stored to. -/
structure RelocArray where
  entries : List MipsReloc
  sz : ℕ
  accessed : List ℕ
  fits : entries.length ≤ sz
  below : ∀ i ∈ accessed, i < entries.length

/-- `relocs` before the first relocation. -/
def RelocArray.empty : RelocArray :=
  ⟨[], 0, [], Nat.le_refl 0, fun _ h => absurd h List.not_mem_nil⟩

/-- `relocs[relocs_idx++] = r`, in an array of `sz` entries. -/
def RelocArray.push (a : RelocArray) (sz : ℕ) (h : a.entries.length < sz) (r : MipsReloc) :
    RelocArray where
  entries := a.entries ++ [r]
  sz := sz
  accessed := a.accessed ++ [a.entries.length]
  fits := by
    rw [List.length_append, List.length_singleton]
    exact h
  below := by
    intro i hi
    rw [List.length_append, List.length_singleton]
    rcases List.mem_append.mp hi with hi | hi
    · exact (a.below i hi).trans (Nat.lt_succ_self _)
    · rw [List.mem_singleton.mp hi]
      exact Nat.lt_succ_self _

/-- The capacity after the next `realloc`. -/
def RelocArray.newSz (a : RelocArray) : ℕ :=
  if a.sz ≠ 0 then a.sz * 2 else 128

theorem RelocArray.length_lt_newSz (a : RelocArray) : a.entries.length < a.newSz := by
  have hfits := a.fits
  rw [newSz]
  split_ifs <;> omega

/-- `add_reloc`. -/
def addReloc (env : ToolEnv) (a : RelocArray) (type off : ℕ) :
    Except (ToolError × RelocArray) RelocArray :=
  if type ≠ rMips32 then .ok a
  else if h : a.entries.length = a.sz then
    if env.realloc a.newSz then .ok (a.push a.newSz a.length_lt_newSz ⟨type, off⟩)
    else .error (.outOfMemory, a)
  else .ok (a.push a.sz (Nat.lt_of_le_of_ne a.fits h) ⟨type, off⟩)

/-- `parse_mips32_rel`. -/
def parseMips32Rel (env : ToolEnv) (k : ElfKind) (elf : List (BitVec 8)) (textBase rel : ℕ)
    (a : RelocArray) : Except (ToolError × RelocArray) RelocArray :=
  let off := u32 ((hdrField k elf rel rOffset : ℤ) - textBase)
  let type := hdrField k elf rel rInfo &&& 0xff
  addReloc env a type off

/-- `parse_mips64_rela`: `r_info` is read in the byte order of the host. -/
def parseMips64Rela (env : ToolEnv) (k : ElfKind) (elf : List (BitVec 8)) (textBase rel : ℕ)
    (a : RelocArray) : Except (ToolError × RelocArray) RelocArray :=
  let off := u64 ((hdrField k elf rel rOffset : ℤ) - textBase)
  let type := hdrField { k with isBe := env.hostBe } elf rel rInfo >>> (64 - 8)
  addReloc env a type off

/-- A section of relocations is skipped unless the section it is named after is loaded. Its name
is that without the prefix. -/
def skipSection (t : ElfTables) (elf : List (BitVec 8)) (i : ℕ) : Bool :=
  let pfx := if t.kind.is64 then literal ".rela." else literal ".rel."
  let name := t.shstr elf (t.shdrField elf i shName + (pfx.length - 1))
  match (List.range (t.ehdrField elf eShnum)).find? fun j =>
      decide (name = t.shstr elf (t.shdrField elf j shName)) with
  | none => true
  | some j => t.shdrField elf j shFlags &&& 2 == 0

/-- The body of the loop over the sections. -/
def collectSection (env : ToolEnv) (t : ElfTables) (elf : List (BitVec 8)) (textBase : ℕ)
    (a : RelocArray) (i : ℕ) : Except (ToolError × RelocArray) RelocArray :=
  let type := t.shdrField elf i shType
  if type ≠ 9 ∧ type ≠ 4 then .ok a
  else if skipSection t elf i then .ok a
  else
    let entsize := u32 (t.shdrField elf i shEntsize)
    if entsize = 0 then .error (.divideByZero, a)
    else
      let entries := u32 (t.shdrField elf i shSize / entsize : ℕ)
      let entry := fun j : ℕ => t.shdrField elf i shOffset + u32 (j * entsize : ℕ)
      if type = 9 then
        if t.kind.is64 then .error (.relInMips64, a)
        else (List.range entries).foldlM
          (fun a j => parseMips32Rel env t.kind elf textBase (entry j) a) a
      else
        if t.kind.is64 then (List.range entries).foldlM
          (fun a j => parseMips64Rela env t.kind elf textBase (entry j) a) a
        else .error (.relaInMips32, a)

/-- The tool up to the sorting: the tables, the index of `.reltable`, and the relocations. -/
def collect (env : ToolEnv) (elf : List (BitVec 8)) :
    Except (ToolError × RelocArray) (ElfTables × ℕ × RelocArray) :=
  match readTables elf with
  | .error e => .error (e, .empty)
  | .ok t =>
      match findSections t elf with
      | (none, _) => .error (.noRelSection, .empty)
      | (some r, textBase) =>
          if textBase = 0 then .error (.noTextBase, .empty)
          else
            match (List.range (t.ehdrField elf eShnum)).foldlM
                (collectSection env t elf textBase) .empty with
            | .error e => .error e
            | .ok a => .ok (t, r, a)

/-! ### Writing the table -/

/-- The indices that the loop of `deltaLoop` accesses, up to one outside the array. -/
def deltaAccesses (n : ℕ) : ℕ → List ℕ
  | 0 => []
  | i + 1 => if i + 1 < n then (i + 1) :: i :: deltaAccesses n i else [i + 1]

/-- What the second loop has written and accessed, and whether it has ended. -/
structure Emission where
  bytes : List (BitVec 8)
  accessed : List ℕ
  ended : Bool

/-- The loop that writes the relocations, from index `i` on, and the terminator behind it. The
index is an `unsigned int`. -/
def emitLoop (relocs : List MipsReloc) : ℕ → ℕ → Emission
  | 0, _ => ⟨[], [], false⟩
  | fuel + 1, i =>
      match relocs[i]? with
      | none => ⟨outputUint rMipsNone, [], true⟩
      | some r =>
          let rest := emitLoop relocs fuel (u32 (i + 1 : ℕ))
          ⟨outputUint r.type ++ (outputUint (r.offset >>> 2) ++ rest.bytes), i :: rest.accessed,
            rest.ended⟩

/-- The tool when it is over: the mapped file, `relocs_idx`, the indices of `relocs` accessed, the
positions of the file stored to, and the result. -/
structure ToolRun where
  elf : List (BitVec 8)
  relocsIdx : ℕ
  accessed : List ℕ
  written : List ℕ
  result : Except ToolError Unit

/-- The first segment that is loaded. -/
def firstLoad (t : ElfTables) (elf : List (BitVec 8)) : Option ℕ :=
  (List.range (t.ehdrField elf ePhnum)).find? fun i => t.phdrField elf i pType == 1

/-- The headers are updated for a table of `actual` bytes in a section of `relSize`: the file,
and the positions stored to. -/
def updateHeaders (t : ElfTables) (elf : List (BitVec 8)) (r relSize actual : ℕ) :
    List (BitVec 8) × List ℕ :=
  let elf := setHdrField t.kind elf (t.shdrAt r) shSize actual
  let written := (shSize.span t.kind (t.shdrAt r)).positions
  match firstLoad t elf with
  | none => (elf, written)
  | some i =>
      let loadSz := u64 ((t.phdrField elf i pFilesz : ℤ) - (relSize - actual : ℕ))
      (setHdrField t.kind elf (t.phdrAt i) pFilesz loadSz,
        written ++ (pFilesz.span t.kind (t.phdrAt i)).positions)

/-- The tool behind the distances: the table is written, its size checked, and the headers
updated. -/
def writeTable (env : ToolEnv) (t : ElfTables) (elf : List (BitVec 8)) (r : ℕ)
    (relocs : List MipsReloc) (accessed : List ℕ) : ToolRun :=
  let start := t.shdrField elf r shOffset
  let e := emitLoop relocs (relocs.length + 1) 0
  let elf := patch elf start e.bytes
  let written := (Span.mk start e.bytes.length).positions
  let accessed := accessed ++ e.accessed
  if e.ended = false then ⟨elf, relocs.length, accessed, written, .error .spinning⟩
  else
    let relSize := t.shdrField elf r shSize
    if relSize < e.bytes.length then
      ⟨elf, relocs.length, accessed, written, .error .relocsOverflowed⟩
    else
      let updated := updateHeaders t elf r relSize e.bytes.length
      ⟨updated.1, relocs.length, accessed, written ++ updated.2,
        if env.msync then .ok () else .error .msync⟩

/-- The tool behind the collection. -/
def finish (env : ToolEnv) (t : ElfTables) (elf : List (BitVec 8)) (r : ℕ) (a : RelocArray) :
    ToolRun :=
  let relocs := env.qsort compareRelocs a.entries
  let i := u32 ((relocs.length : ℤ) - 1)
  let accessed := a.accessed ++ deltaAccesses relocs.length i
  match deltaLoop i relocs with
  | none => ⟨elf, relocs.length, accessed, [], .error .outsideRelocs⟩
  | some relocs => writeTable env t elf r relocs accessed

/-- `main` of `mips-relocs` on a mapped file. -/
def mipsRelocs (env : ToolEnv) (elf : List (BitVec 8)) : ToolRun :=
  match collect env elf with
  | .error (e, a) => ⟨elf, a.entries.length, a.accessed, [], .error e⟩
  | .ok (t, r, a) => finish env t elf r a

/-! ### The loops -/

section
variable {relocs : List MipsReloc}

/-- The first loop, started inside the array, stays inside and keeps its length. -/
theorem deltaLoop_spec {i : ℕ} (hi : i < relocs.length) :
    ∃ relocs', deltaLoop i relocs = some relocs' ∧ relocs'.length = relocs.length := by
  induction i generalizing relocs with
  | zero => exact ⟨relocs, rfl, rfl⟩
  | succ i ih =>
      have hr : relocs[i + 1]? = some relocs[i + 1] := List.getElem?_eq_getElem hi
      have hp : relocs[i]? = some relocs[i] := List.getElem?_eq_getElem (by omega)
      rw [deltaLoop, hr, hp]
      have hnext : i < (relocs.set (i + 1) { relocs[i + 1] with
          offset := u64 ((relocs[i + 1].offset : ℤ) - relocs[i].offset) }).length := by
        rw [List.length_set]
        omega
      obtain ⟨relocs', hloop, hlen⟩ := ih hnext
      exact ⟨relocs', hloop, hlen.trans (List.length_set ..)⟩

theorem deltaAccesses_lt {n i j : ℕ} (hi : i < n) (hj : j ∈ deltaAccesses n i) : j < n := by
  induction i with
  | zero => exact absurd hj List.not_mem_nil
  | succ i ih =>
      rw [deltaAccesses, if_pos hi, List.mem_cons, List.mem_cons] at hj
      rcases hj with rfl | rfl | hj
      · exact hi
      · omega
      · exact ih (by omega) hj

theorem one_le_length_outputUint (v : ℕ) : 1 ≤ (outputUint v).length := by
  rw [outputUint]
  split_ifs <;> simp

theorem length_emitRelocs (relocs : List MipsReloc) :
    2 * relocs.length + 1 ≤ (emitRelocs relocs).length := by
  induction relocs with
  | nil => exact one_le_length_outputUint _
  | cons r relocs ih =>
      have htype := one_le_length_outputUint r.type
      have hoff := one_le_length_outputUint (r.offset >>> 2)
      rw [emitRelocs_cons, List.length_append, List.length_append, List.length_cons]
      omega

/-- The second loop writes the table, if its index does not wrap around. -/
theorem emitLoop_eq (hlt : relocs.length < 4294967296) {fuel i : ℕ}
    (hi : i + fuel = relocs.length) :
    emitLoop relocs (fuel + 1) i = ⟨emitRelocs (relocs.drop i), List.range' i fuel, true⟩ := by
  induction fuel generalizing i with
  | zero =>
      rw [emitLoop, List.getElem?_eq_none (by omega), List.drop_eq_nil_of_le (by omega)]
      rfl
  | succ fuel ih =>
      have hnext : u32 (i + 1 : ℕ) = i + 1 := u32_natCast_of_lt (by omega)
      rw [emitLoop, List.getElem?_eq_getElem (by omega)]
      dsimp only
      rw [hnext, ih (by omega), ← List.cons_getElem_drop_succ (h := (by omega : i < relocs.length)),
        emitRelocs_cons, List.range'_succ]

/-- If its index does wrap around, the second loop writes two bytes at least in each of its
rounds. -/
theorem emitLoop_of_wrap (hge : 4294967296 ≤ relocs.length) (fuel : ℕ) {i : ℕ}
    (hi : i < relocs.length) : 2 * fuel ≤ (emitLoop relocs fuel i).bytes.length := by
  induction fuel generalizing i with
  | zero => exact Nat.zero_le _
  | succ fuel ih =>
      have hnext : u32 (i + 1 : ℕ) < relocs.length := by
        rw [u32_natCast]
        omega
      have hrest := ih hnext
      have htype := one_le_length_outputUint relocs[i].type
      have hoff := one_le_length_outputUint (relocs[i].offset >>> 2)
      rw [emitLoop, List.getElem?_eq_getElem hi]
      dsimp only
      rw [List.length_append, List.length_append]
      omega

end

/-! ### The headers -/

/-- The section `.reltable`, whose header is the one at `r`. -/
def relSpan (t : ElfTables) (elf : List (BitVec 8)) (r : ℕ) : Span :=
  ⟨t.shdrField elf r shOffset, t.shdrField elf r shSize⟩

/-- The header of the file. -/
def ElfTables.ehdrSpan (t : ElfTables) : Span :=
  ⟨0, t.kind.ehdrSize⟩

/-- The headers of the segments. -/
def ElfTables.phdrSpan (t : ElfTables) (elf : List (BitVec 8)) : Span :=
  ⟨t.phdr, t.ehdrField elf ePhnum * t.kind.phdrSize⟩

/-- The headers of the sections. -/
def ElfTables.shdrSpan (t : ElfTables) (elf : List (BitVec 8)) : Span :=
  ⟨t.shdr, t.ehdrField elf eShnum * t.kind.shdrSize⟩

/-- The parts of the file that the tool relies on. -/
def elfSpans (t : ElfTables) (elf : List (BitVec 8)) (r : ℕ) : List Span :=
  [t.ehdrSpan, t.phdrSpan elf, t.shdrSpan elf, relSpan t elf r]

/-- **A well-formed MIPS32 executable** with a `.reltable` section: its headers and that section
lie in the file and do not overlap. -/
@[mk_iff]
structure WellFormed (elf : List (BitVec 8)) (t : ElfTables) (r : ℕ) : Prop where
  tables : readTables elf = .ok t
  mips32 : t.kind.is64 = false
  reltable : (findSections t elf).1 = some r
  inside : ∀ s ∈ elfSpans t elf r, s.stop ≤ elf.length
  apart : (elfSpans t elf r).Pairwise Span.Apart

instance (elf : List (BitVec 8)) (t : ElfTables) (r : ℕ) : Decidable (WellFormed elf t r) :=
  decidable_of_iff _ (wellFormed_iff elf t r).symm

section
variable {elf elf' : List (BitVec 8)} {t : ElfTables} {r : ℕ}

theorem findSection_foldl {l : List ℕ} {found : Option ℕ × ℕ}
    (h : (l.foldl (findSection t elf) found).1 = some r) : found.1 = some r ∨ r ∈ l := by
  induction l generalizing found with
  | nil => exact .inl h
  | cons i l ih =>
      rw [List.foldl_cons] at h
      rcases ih h with hfound | hmem
      · rw [findSection] at hfound
        split_ifs at hfound
        · exact .inr (Option.some.inj hfound ▸ List.mem_cons_self)
        · exact .inl hfound
        · exact .inl hfound
      · exact .inr (List.mem_cons_of_mem i hmem)

theorem findSections_lt (h : (findSections t elf).1 = some r) : r < t.ehdrField elf eShnum := by
  rcases findSection_foldl h with h | h
  · cases h
  · exact List.mem_range.mp h

theorem firstLoad_lt {i : ℕ} (h : firstLoad t elf = some i) : i < t.ehdrField elf ePhnum :=
  List.mem_range.mp (List.mem_of_find?_eq_some h)

theorem SameOn.hdrField_eq {s : Span} {k : ElfKind} {hdr : ℕ} {f : ElfField}
    (h : SameOn s elf elf') (hf : (f.span k hdr).Within s) :
    hdrField k elf' hdr f = hdrField k elf hdr f := by
  rw [hdrField, hdrField, h.slice_eq hf]

theorem shdrField_within (h32 : t.kind.is64 = false) {n : ℕ} (hr : r < n) (f : ElfField)
    (hf : f.off32 + f.size32 ≤ 40) :
    (f.span t.kind (t.shdrAt r)).Within ⟨t.shdr, n * t.kind.shdrSize⟩ := by
  rw [ElfField.span, ElfTables.shdrAt, ElfKind.shdrSize, h32, Span.Within, Span.stop, Span.stop]
  simp only [Bool.false_eq_true, if_false]
  omega

theorem phdrField_within (h32 : t.kind.is64 = false) {i n : ℕ} (hi : i < n) (f : ElfField)
    (hf : f.off32 + f.size32 ≤ 32) :
    (f.span t.kind (t.phdrAt i)).Within ⟨t.phdr, n * t.kind.phdrSize⟩ := by
  rw [ElfField.span, ElfTables.phdrAt, ElfKind.phdrSize, h32, Span.Within, Span.stop, Span.stop]
  simp only [Bool.false_eq_true, if_false]
  omega

theorem ehdrField_within (h32 : t.kind.is64 = false) (f : ElfField)
    (hf : f.off32 + f.size32 ≤ 52) : (f.span t.kind 0).Within t.ehdrSpan := by
  rw [ElfField.span, ElfTables.ehdrSpan, ElfKind.ehdrSize, h32, Span.Within, Span.stop, Span.stop]
  simp only [Bool.false_eq_true, if_false]
  omega

/-- The first segment that is loaded is found in the headers of the file and the segments. -/
theorem firstLoad_eq (h32 : t.kind.is64 = false) (hehdr : SameOn t.ehdrSpan elf elf')
    (hphdr : SameOn (t.phdrSpan elf) elf elf') : firstLoad t elf' = firstLoad t elf := by
  have hnum : t.ehdrField elf' ePhnum = t.ehdrField elf ePhnum :=
    hehdr.hdrField_eq (ehdrField_within h32 ePhnum (by decide))
  rw [firstLoad, firstLoad, hnum]
  refine List.find?_congr ?_
  intro i hi
  have hin := phdrField_within h32 (List.mem_range.mp hi) pType (by decide)
  rw [ElfTables.phdrField, ElfTables.phdrField, hphdr.hdrField_eq hin]

theorem length_leBytes (n v : ℕ) : (leBytes n v).length = n := by
  induction n generalizing v with
  | zero => rfl
  | succ n ih => rw [leBytes, List.length_cons, ih]

theorem length_hto (k : ElfKind) (size v : ℕ) : (k.hto size v).length = size := by
  rw [ElfKind.hto]
  split_ifs
  · rw [List.length_reverse, length_leBytes]
  · exact length_leBytes size v

/-- Setting a field changes nothing apart from it. -/
theorem sameOn_setHdrField {s : Span} {k : ElfKind} {hdr : ℕ} {f : ElfField} (v : ℕ)
    (h : (f.span k hdr).Apart s) : SameOn s elf (setHdrField k elf hdr f v) := by
  refine sameOn_patch ?_
  rw [length_hto]
  exact h

theorem leValue_lt {bytes : List (BitVec 8)} (h : bytes.length = 4) :
    leValue bytes < 4294967296 := by
  obtain ⟨a, b, c, d, rfl⟩ := List.length_eq_four.mp h
  have ha := a.isLt
  have hb := b.isLt
  have hc := c.isLt
  have hd := d.isLt
  simp only [leValue]
  omega

theorem hdrField_lt {k : ElfKind} (h32 : k.is64 = false) (elf : List (BitVec 8)) (hdr : ℕ)
    {f : ElfField} (hf : f.size32 = 4) : hdrField k elf hdr f < 4294967296 := by
  refine leValue_lt ?_
  have hlen : (slice elf 0 (f.span k hdr)).length = 4 := by
    rw [slice, List.length_map, List.length_range, ElfField.span, h32]
    exact hf
  split_ifs
  · rw [List.length_reverse, hlen]
  · exact hlen

end

/-! ### The law -/

/-- What the tool may store to: `.reltable`, the size in its header, and the file size of the first
segment that is loaded. -/
def MayWrite (t : ElfTables) (elf : List (BitVec 8)) (r i : ℕ) : Prop :=
  i ∈ relSpan t elf r ∨ i ∈ shSize.span t.kind (t.shdrAt r) ∨
    ∃ j, firstLoad t elf = some j ∧ i ∈ pFilesz.span t.kind (t.phdrAt j)

/-- **The run accesses only what it may**, and if the table is refused for its size, the file is
as it was. -/
structure ToolRun.Safe (run : ToolRun) (t : ElfTables) (elf : List (BitVec 8)) (r : ℕ) : Prop where
  indices : ∀ i ∈ run.accessed, i < run.relocsIdx
  bytes : ∀ i ∈ run.written, MayWrite t elf r i
  unchanged : run.result = .error .relocsOverflowed → run.elf = elf

section
variable {env : ToolEnv} {elf : List (BitVec 8)} {t : ElfTables} {r : ℕ}
  {relocs : List MipsReloc} {accessed : List ℕ}

/-- The tool does not stop before the whole table is written. -/
theorem positions_subset_written :
    (Span.mk (t.shdrField elf r shOffset)
        (emitLoop relocs (relocs.length + 1) 0).bytes.length).positions ⊆
      (writeTable env t elf r relocs accessed).written := by
  dsimp only [writeTable]
  split_ifs
  · exact List.Subset.refl _
  · exact List.Subset.refl _
  · exact List.subset_append_left _ _
  · exact List.subset_append_left _ _

/-- The headers and the output section lie apart. -/
theorem WellFormed.spans_apart (hw : WellFormed elf t r) :
    t.ehdrSpan.Apart (t.shdrSpan elf) ∧ t.ehdrSpan.Apart (relSpan t elf r) ∧
      (t.phdrSpan elf).Apart (t.shdrSpan elf) ∧ (t.phdrSpan elf).Apart (relSpan t elf r) ∧
      (t.shdrSpan elf).Apart (relSpan t elf r) := by
  have hapart := hw.apart
  simp only [elfSpans, List.pairwise_cons, List.mem_cons, List.not_mem_nil, or_false,
    forall_eq_or_imp, forall_eq] at hapart
  exact ⟨hapart.1.2.1, hapart.1.2.2, hapart.2.1.1, hapart.2.1.2, hapart.2.2.1⟩

/-- The position behind `.reltable` is none that may be stored to. -/
theorem WellFormed.not_mayWrite_stop (hw : WellFormed elf t r) :
    ¬ MayWrite t elf r (relSpan t elf r).stop := by
  obtain ⟨-, -, -, hphdr, hshdr⟩ := hw.spans_apart
  rintro (hrel | hsize | ⟨j, hload, hfilesz⟩)
  · exact absurd hrel.2 (Nat.lt_irrefl _)
  · have hin := shdrField_within hw.mips32 (findSections_lt hw.reltable) shSize (by decide)
    refine hshdr.symm.stop_notMem hin ?_ hsize
    rw [ElfField.span, hw.mips32]
    change t.shdr < t.shdr + r * t.kind.shdrSize + 20
    omega
  · have hin := phdrField_within hw.mips32 (firstLoad_lt hload) pFilesz (by decide)
    refine hphdr.symm.stop_notMem hin ?_ hfilesz
    rw [ElfField.span, hw.mips32]
    change t.phdr < t.phdr + j * t.kind.phdrSize + 16
    omega

/-- With a table that fits, the headers are read as they were before it was written. -/
theorem WellFormed.updateHeaders_written (hw : WellFormed elf t r) {bytes : List (BitVec 8)}
    (hfit : bytes.length ≤ t.shdrField elf r shSize) :
    let elf' := patch elf (t.shdrField elf r shOffset) bytes
    t.shdrField elf' r shSize = t.shdrField elf r shSize ∧
      ∀ relSize, ∀ i ∈ (updateHeaders t elf' r relSize bytes.length).2, MayWrite t elf r i := by
  intro elf'
  obtain ⟨hehdr, hehdr', hphdr, hphdr', hshdr'⟩ := hw.spans_apart
  have hr := findSections_lt hw.reltable
  have hsize : (shSize.span t.kind (t.shdrAt r)).Within (t.shdrSpan elf) :=
    shdrField_within hw.mips32 hr shSize (by decide)
  have htable : (Span.mk (t.shdrField elf r shOffset) bytes.length).Within (relSpan t elf r) :=
    ⟨Nat.le_refl _, Nat.add_le_add_left hfit _⟩
  have hsame {s : Span} (hs : s.Apart (relSpan t elf r)) : SameOn s elf elf' :=
    sameOn_patch (hs.symm.within htable (.refl s))
  refine ⟨(hsame hshdr').hdrField_eq hsize, ?_⟩
  intro relSize i hi
  -- the size in the section header is not one of the bytes that lead to the first segment
  have hupdated {s : Span} (hs : s.Apart (relSpan t elf r)) (hs' : s.Apart (t.shdrSpan elf)) :
      SameOn s elf (setHdrField t.kind elf' (t.shdrAt r) shSize bytes.length) :=
    (hsame hs).trans (sameOn_setHdrField _ (hs'.symm.within hsize (.refl s)))
  have hload := firstLoad_eq hw.mips32 (hupdated hehdr' hehdr) (hupdated hphdr' hphdr)
  rw [updateHeaders, hload] at hi
  cases hfirst : firstLoad t elf with
  | none =>
      rw [hfirst] at hi
      exact .inr (.inl (Span.mem_positions.mp hi))
  | some j =>
      rw [hfirst] at hi
      rcases List.mem_append.mp hi with hi | hi
      · exact .inr (.inl (Span.mem_positions.mp hi))
      · exact .inr (.inr ⟨j, hfirst, Span.mem_positions.mp hi⟩)

/-- The table is written safely exactly when it fits. -/
theorem WellFormed.writeTable_safe_iff (hw : WellFormed elf t r)
    (hacc : ∀ i ∈ accessed, i < relocs.length) :
    (writeTable env t elf r relocs accessed).Safe t elf r ↔
      (emitRelocs relocs).length ≤ t.shdrField elf r shSize := by
  have hsize : t.shdrField elf r shSize < 4294967296 := hdrField_lt hw.mips32 elf _ rfl
  have htable := length_emitRelocs relocs
  constructor
  · intro hsafe
    by_contra hlong
    refine hw.not_mayWrite_stop (hsafe.bytes _ (positions_subset_written ?_))
    rw [Span.mem_positions, Span.mem_mk, relSpan, Span.stop]
    dsimp only
    rcases Nat.lt_or_ge relocs.length 4294967296 with hlt | hge
    · rw [emitLoop_eq hlt (Nat.zero_add _), List.drop_zero]
      dsimp only
      omega
    · have hlen := emitLoop_of_wrap hge (relocs.length + 1) (i := 0) (by omega)
      omega
  · intro hfit
    obtain ⟨hsame, hmay⟩ := hw.updateHeaders_written hfit
    have hlt : relocs.length < 4294967296 := by omega
    have hemit := emitLoop_eq hlt (Nat.zero_add _)
    rw [List.drop_zero] at hemit
    dsimp only [writeTable]
    rw [hemit]
    dsimp only
    rw [if_neg (by decide), hsame, if_neg (by omega)]
    constructor
    · intro i hi
      rcases List.mem_append.mp hi with hi | hi
      · exact hacc i hi
      · exact (List.mem_range'_1.mp hi).2.trans_eq (Nat.zero_add _)
    · intro i hi
      rcases List.mem_append.mp hi with hi | hi
      · have hi := Span.mem_positions.mp hi
        exact .inl ⟨hi.1, hi.2.trans_le (Nat.add_le_add_left hfit _)⟩
      · exact hmay _ i hi
    · intro h
      dsimp only at h
      split_ifs at h
      cases h

/-- Behind the collection the tool is safe exactly when there is a relocation, since the index of
the first loop wraps around otherwise, and the table fits. -/
theorem WellFormed.finish_safe_iff (hw : WellFormed elf t r) (a : RelocArray) :
    (finish env t elf r a).Safe t elf r ↔
      a.entries ≠ [] ∧ ∀ table, relTable env.qsort a.entries = some table →
        table.length ≤ t.shdrField elf r shSize := by
  have hlen := env.length_qsort compareRelocs a.entries
  rw [relTable]
  dsimp only [finish]
  generalize env.qsort compareRelocs a.entries = relocs at hlen ⊢
  by_cases hnil : a.entries = []
  · obtain rfl : relocs = [] := List.length_eq_zero_iff.mp (hlen.trans (by rw [hnil]; rfl))
    have hindex : u32 ((([] : List MipsReloc).length : ℤ) - 1) = 4294967295 := rfl
    have houtside : deltaLoop 4294967295 [] = none := rfl
    have haccess : 4294967295 ∈ a.accessed ++ deltaAccesses 0 4294967295 :=
      List.mem_append_right _ (List.mem_singleton_self _)
    rw [hindex, houtside]
    refine ⟨fun hsafe => ?_, fun hcond => absurd hnil hcond.1⟩
    exact absurd (hsafe.indices _ haccess) (Nat.not_lt_zero _)
  · have hpos : 0 < a.entries.length := List.length_pos_iff.mpr hnil
    have hindex : u32 ((relocs.length : ℤ) - 1) < relocs.length := by
      unfold u32
      omega
    obtain ⟨relocs', hdelta, hlen'⟩ := deltaLoop_spec hindex
    rw [hdelta]
    have hacc : ∀ i ∈ a.accessed ++
        deltaAccesses relocs.length (u32 ((relocs.length : ℤ) - 1)), i < relocs'.length := by
      intro i hi
      rw [hlen']
      rcases List.mem_append.mp hi with hi | hi
      · rw [hlen]
        exact a.below i hi
      · exact deltaAccesses_lt hindex hi
    simp [hw.writeTable_safe_iff hacc, hnil]

/-- The collection finds the tables of a well-formed file. -/
theorem WellFormed.collect_ok {a : RelocArray} {t' : ElfTables} {r' : ℕ} (hw : WellFormed elf t r)
    (h : collect env elf = .ok (t', r', a)) : t' = t ∧ r' = r := by
  rw [collect, hw.tables] at h
  dsimp only at h
  have hrel := hw.reltable
  rcases hfind : findSections t elf with ⟨found, textBase⟩
  rw [hfind] at h hrel
  obtain rfl : found = some r := hrel
  dsimp only at h
  split_ifs at h
  split at h
  · cases h
  · cases h
    exact ⟨rfl, rfl⟩

/-- **Exactly when the tool is safe on a well-formed file**: when it fails before it writes, or it
has found a relocation and the table fits into its section. -/
theorem reloc_tool_safe_iff (env : ToolEnv) {elf : List (BitVec 8)} {t : ElfTables} {r : ℕ}
    (hw : WellFormed elf t r) :
    (mipsRelocs env elf).Safe t elf r ↔ ∀ a, collect env elf = .ok (t, r, a) →
      a.entries ≠ [] ∧ ∀ table, relTable env.qsort a.entries = some table →
        table.length ≤ t.shdrField elf r shSize := by
  rw [mipsRelocs]
  cases hcollect : collect env elf with
  | error failed =>
      refine ⟨?_, fun _ => ⟨failed.2.below, ?_, fun _ => rfl⟩⟩
      · intro _ a h
        cases h
      · intro i hi
        exact absurd hi List.not_mem_nil
  | ok collected =>
      obtain ⟨t', r', a⟩ := collected
      obtain ⟨rfl, rfl⟩ := hw.collect_ok hcollect
      simp only [Except.ok.injEq, Prod.mk.injEq, true_and, forall_eq']
      exact hw.finish_safe_iff a

end

/-- A section header of a big-endian file: name, type, flags, address, offset, size and entry
size. -/
def sampleShdr (name type flags addr offset size entsize : ℕ) : List (BitVec 8) :=
  [name, type, flags, addr, offset, size, 0, 0, 0, entsize].flatMap (ElfKind.hto ⟨false, true⟩ 4)

/-- A big-endian executable with a segment that is loaded, a word of `.text` at the address
`0x80010000`, the first `rels` bytes of a relocation of that word, and a `.reltable` of `size`
bytes. -/
def sampleElf (rels size : ℕ) : List (BitVec 8) :=
  let half := ElfKind.hto ⟨false, true⟩ 2
  let word := ElfKind.hto ⟨false, true⟩ 4
  (127 :: literal "ELF") ++ [1, 2, 1] ++ List.replicate 9 0 ++ half 2 ++ half 8 ++ word 1 ++
    word 0x80010000 ++ word 52 ++ word 132 ++ word 0 ++ half 52 ++ half 32 ++ half 1 ++ half 40 ++
    half 5 ++ half 4 ++
  [1, 84, 0x80010000, 0x80010000, 16, 16, 7, 4].flatMap word ++
  word 0 ++ word 0x80010000 ++ word 2 ++ word 0 ++
  (0 :: literal ".rel.text" ++ 0 :: literal ".reltable" ++ 0 :: literal ".shstrtab") ++ [0, 0] ++
  sampleShdr 0 0 0 0 0 0 0 ++ sampleShdr 5 1 6 0x80010000 84 4 0 ++
  sampleShdr 1 9 0 0 88 rels 8 ++ sampleShdr 11 1 2 0x8001000c 96 size 0 ++
  sampleShdr 21 3 0 0 100 31 0

/-- Its tables. -/
def sampleTables : ElfTables :=
  ⟨⟨false, true⟩, 52, 132, 100⟩

/-- Surroundings in which nothing fails and there is nothing to sort. -/
def sampleEnv : ToolEnv :=
  ⟨fun _ => true, true, fun _ relocs => relocs, false, fun _ _ => rfl⟩

/-- One relocation, and room for its table. -/
theorem reloc_tool_safe_sample :
    WellFormed (sampleElf 8 4) sampleTables 3 ∧
      (mipsRelocs sampleEnv (sampleElf 8 4)).Safe sampleTables (sampleElf 8 4) 3 := by
  have hw : WellFormed (sampleElf 8 4) sampleTables 3 := by decide +kernel
  refine ⟨hw, (reloc_tool_safe_iff sampleEnv hw).mpr ?_⟩
  intro a ha
  have hentries : (collect sampleEnv (sampleElf 8 4)).toOption.map (·.2.2.entries) =
      some [⟨2, 0⟩] := by decide +kernel
  rw [ha] at hentries
  have hentries : a.entries = [⟨2, 0⟩] := Option.some.inj hentries
  have htable : relTable sampleEnv.qsort [⟨2, 0⟩] = some [2, 0, 0] := by decide +kernel
  rw [hentries, htable]
  refine ⟨List.cons_ne_nil _ _, ?_⟩
  rintro table ⟨⟩
  decide +kernel

/-- Without a relocation the tool accesses the entry with the largest index; and a table that does
not fit has changed the file when it is refused. -/
theorem reloc_tool_overruns :
    (WellFormed (sampleElf 0 4) sampleTables 3 ∧
      ¬ (mipsRelocs sampleEnv (sampleElf 0 4)).Safe sampleTables (sampleElf 0 4) 3) ∧
    (WellFormed (sampleElf 8 1) sampleTables 3 ∧
      ¬ (mipsRelocs sampleEnv (sampleElf 8 1)).Safe sampleTables (sampleElf 8 1) 3) := by
  have hnone : 4294967295 ∈ (mipsRelocs sampleEnv (sampleElf 0 4)).accessed ∧
      (mipsRelocs sampleEnv (sampleElf 0 4)).relocsIdx = 0 := by decide +kernel
  have hlong : (mipsRelocs sampleEnv (sampleElf 8 1)).result = .error .relocsOverflowed ∧
      (mipsRelocs sampleEnv (sampleElf 8 1)).elf ≠ sampleElf 8 1 := by decide +kernel
  refine ⟨⟨by decide +kernel, fun hsafe => ?_⟩, by decide +kernel, fun hsafe => ?_⟩
  · have haccess := hsafe.indices _ hnone.1
    rw [hnone.2] at haccess
    exact absurd haccess (Nat.not_lt_zero _)
  · exact hlong.2 (hsafe.unchanged hlong.1)

end RtBoot
