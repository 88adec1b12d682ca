import RtBoot.Machine
import RtBoot.Memory

/-!
# Boot Images

The format shared by the host tool `mkimage`, which builds an image, and the boot loader,
which starts it: a header of 64 bytes, its words big-endian, with one checksum over itself
and one over the data behind it. The data of a multi-file image begins with the sizes of
the files, ended by a zero word; the files follow, each but the last filled up to a whole
number of words.

The model of the tool begins behind the parsing of its options. Its checksum
`tinf_crc32` is another library's and is a parameter. The files are given by their
contents; opening, mapping and writing them succeeds unless the tool's own checks, an
empty mapping or a negative length prevent it.

## Main results

* `loadHeader_eq`: a header is read back from its bytes.
* `mkimage_eq`, `payload_multi`, `payload_kernel`: the images the tool builds.
-/

namespace RtBoot

/-! ### The checksum -/

/-- `crc32tab`. -/
def crc32tab : List (BitVec 32) :=
  [0x00000000, 0x1db71064, 0x3b6e20c8, 0x26d930ac, 0x76dc4190,
   0x6b6b51f4, 0x4db26158, 0x5005713c, 0xedb88320, 0xf00f9344,
   0xd6d6a3e8, 0xcb61b38c, 0x9b64c2b0, 0x86d3d2d4, 0xa00ae278,
   0xbdbdf21c]

/-- Half a turn of the loop of `crc32`: four bits. -/
def crc32Nibble (crc : BitVec 32) : BitVec 32 :=
  crc32tab.getD (crc &&& 0x0f).toNat 0 ^^^ (crc >>> 4)

/-- `crc32`, over the `length` bytes at `data`. -/
def crc32 (crc : BitVec 32) (data : List (BitVec 8)) : BitVec 32 :=
  let crc := crc ^^^ 0xffffffff
  if data.length = 0 then 0
  else
    data.foldl (fun crc b => crc32Nibble (crc32Nibble (crc ^^^ b.setWidth 32))) crc ^^^
      0xffffffff

-- the check value of the polynomial: the sum of the digits 1 to 9
example : crc32 0 [49, 50, 51, 52, 53, 54, 55, 56, 57] = 0xcbf43926 := by
  decide

/-! ### The header -/

/-- `IH_MAGIC`. -/
def ihMagicNumber : BitVec 32 :=
  0x27051956

/-- `IH_NMLEN`. -/
abbrev ihNmlen : ℕ :=
  32

/-- `IH_OS_LINUX`. -/
def ihOsLinux : BitVec 8 :=
  5

/-- `IH_CPU_MIPS`. -/
def ihCpuMips : BitVec 8 :=
  5

/-- `IH_CPU_PPC`. -/
def ihCpuPpc : BitVec 8 :=
  7

/-- `IH_TYPE_KERNEL`. -/
def ihTypeKernel : BitVec 8 :=
  2

/-- `IH_TYPE_MULTI`. -/
def ihTypeMulti : BitVec 8 :=
  4

/-- `IH_TYPE_SCRIPT`. -/
def ihTypeScript : BitVec 8 :=
  6

/-- `IH_COMP_GZIP`. -/
def ihCompGzip : BitVec 8 :=
  1

/-- `IH_COMP_LZMA`. -/
def ihCompLzma : BitVec 8 :=
  3

/-- `image_header_t`. -/
structure ImageHeader where
  ihMagic : BitVec 32
  ihHcrc : BitVec 32
  ihTime : BitVec 32
  ihSize : BitVec 32
  ihLoad : BitVec 32
  ihEp : BitVec 32
  ihDcrc : BitVec 32
  ihOs : BitVec 8
  ihArch : BitVec 8
  ihType : BitVec 8
  ihComp : BitVec 8
  ihName : Vector (BitVec 8) ihNmlen
  deriving DecidableEq

/-- `sizeof(image_header_t)`. -/
def sizeofImageHeader : ℕ :=
  64

/-- The bytes of a header, as they stand in the image. -/
def ImageHeader.bytes (hdr : ImageHeader) : List (BitVec 8) :=
  be32 hdr.ihMagic ++ (be32 hdr.ihHcrc ++ (be32 hdr.ihTime ++ (be32 hdr.ihSize ++
    (be32 hdr.ihLoad ++ (be32 hdr.ihEp ++ (be32 hdr.ihDcrc ++
      hdr.ihOs :: hdr.ihArch :: hdr.ihType :: hdr.ihComp :: hdr.ihName.toList))))))

theorem length_imageHeader_bytes (hdr : ImageHeader) : hdr.bytes.length = sizeofImageHeader := by
  simp only [ImageHeader.bytes, List.length_append, List.length_cons, length_be32,
    Vector.length_toList]
  rfl

/-- The header that stands at `a`, on a big-endian machine. -/
def loadHeader (m : Mem) (a : BitVec 32) : ImageHeader where
  ihMagic := load32 m a
  ihHcrc := load32 m (addr a 4)
  ihTime := load32 m (addr a 8)
  ihSize := load32 m (addr a 12)
  ihLoad := load32 m (addr a 16)
  ihEp := load32 m (addr a 20)
  ihDcrc := load32 m (addr a 24)
  ihOs := m (addr a 28)
  ihArch := m (addr a 29)
  ihType := m (addr a 30)
  ihComp := m (addr a 31)
  ihName := Vector.ofFn fun i => m (addr a (32 + i))

/-- A header is read back from its bytes. -/
theorem loadHeader_eq {m : Mem} {a : BitVec 32} {hdr : ImageHeader}
    (h : BytesAt m a hdr.bytes) : loadHeader m a = hdr := by
  obtain ⟨hmagic, h⟩ := h.word
  obtain ⟨hhcrc, h⟩ := h.word
  obtain ⟨htime, h⟩ := h.word
  obtain ⟨hsize, h⟩ := h.word
  obtain ⟨hload, h⟩ := h.word
  obtain ⟨hep, h⟩ := h.word
  obtain ⟨hdcrc, h⟩ := h.word
  have hname : Vector.ofFn (fun i : Fin ihNmlen => m (addr a (32 + i))) = hdr.ihName := by
    refine Vector.ext fun i hi => ?_
    rw [Vector.getElem_ofFn]
    have hget : hdr.ihName.toList[i]? = some hdr.ihName[i] := by
      rw [Vector.getElem?_toList, Vector.getElem?_eq_getElem hi]
    simpa only [addr_addr] using h.tail.tail.tail.tail i _ hget
  have hos := h.head
  have harch := h.tail.head
  have htype := h.tail.tail.head
  have hcomp := h.tail.tail.tail.head
  simp only [addr_addr] at hhcrc htime hsize hload hep hdcrc hos harch htype hcomp
  rw [loadHeader, hmagic, hhcrc, htime, hsize, hload, hep, hdcrc, hos, harch, htype, hcomp, hname]

/-! ### The tool -/

/-- The options of `mkimage`. The data files are those the argument of `-d` names: one, or
several with colons between them for the types that allow it. -/
structure MkimageArgs where
  optOs : BitVec 8 := ihOsLinux
  optArch : BitVec 8 := ihCpuPpc
  optType : BitVec 8 := ihTypeKernel
  optComp : BitVec 8 := ihCompGzip
  xflag : Bool := false
  addr : BitVec 32 := 0
  ep : Option (BitVec 32) := none
  name : List (BitVec 8) := []
  datafiles : List (List (BitVec 8))

/-- The entry point: the one given, or the load address; an image that runs in place must
enter right behind its header. The sum it is compared with is one of 64 bits, as `sizeof` is on
the host, so it does not wrap. -/
def MkimageArgs.entryPoint (args : MkimageArgs) : Option (BitVec 32) :=
  let ep := args.ep.getD
    (if args.xflag then args.addr + BitVec.ofNat 32 sizeofImageHeader else args.addr)
  if args.xflag ∧ ep.toNat ≠ args.addr.toNat + sizeofImageHeader then none else some ep

/-- `copy_file`: the bytes it appends to the image. The length is an `int`; a negative one
makes the write fail, and an empty file cannot be mapped. -/
def copyFile (xflag : Bool) (file : List (BitVec 8)) (pad : Bool) : Option (List (BitVec 8)) :=
  if file.length = 0 then none
  else if xflag ∧ (u32 file.length < sizeofImageHeader ∨
      ∃ b ∈ file.take sizeofImageHeader, b ≠ 0xff) then none
  else
    let offset := if xflag then sizeofImageHeader else 0
    let size := i32 ((file.length : ℤ) - offset)
    if size < 0 then none
    else
      let tail := size.toNat % 4
      some ((file.drop offset).take size.toNat ++
        if pad ∧ tail ≠ 0 then List.replicate (4 - tail) 0 else [])

/-- The second loop of `main` over the data files: all but the last are padded. -/
def copyFiles (xflag : Bool) : List (List (BitVec 8)) → Option (List (BitVec 8))
  | [] => none
  | [file] => copyFile xflag file false
  | file :: files => do
      let bytes ← copyFile xflag file true
      let rest ← copyFiles xflag files
      return bytes ++ rest

/-- The first loop of `main` over the data files: their sizes, ended by a zero. -/
def sizeTable (files : List (List (BitVec 8))) : List (BitVec 8) :=
  (files.flatMap fun file => be32 (BitVec.ofNat 32 file.length)) ++ be32 0

/-- What `main` writes behind the header. -/
def MkimageArgs.payload (args : MkimageArgs) : Option (List (BitVec 8)) :=
  if args.optType = ihTypeMulti ∨ args.optType = ihTypeScript then do
    let files ← copyFiles args.xflag args.datafiles
    return sizeTable args.datafiles ++ files
  else
    match args.datafiles with
    | [datafile] => copyFile args.xflag datafile false
    | _ => none

/-- `strncpy` into the name of a cleared header. -/
def strncpyName (name : List (BitVec 8)) : Vector (BitVec 8) ihNmlen :=
  Vector.ofFn fun i => (name.takeWhile (· ≠ 0)).getD i 0

section
variable (tinfCrc32 : List (BitVec 8) → BitVec 32)

/-- The header `main` builds in front of `data`: the checksum over the header is taken while
its own field is still zero. -/
def MkimageArgs.header (args : MkimageArgs) (mtime ep : BitVec 32) (data : List (BitVec 8)) :
    ImageHeader :=
  let hdr : ImageHeader :=
    { ihMagic := ihMagicNumber
      ihHcrc := 0
      ihTime := mtime
      ihSize := BitVec.ofNat 32 data.length
      ihLoad := args.addr
      ihEp := ep
      ihDcrc := tinfCrc32 data
      ihOs := args.optOs
      ihArch := args.optArch
      ihType := args.optType
      ihComp := args.optComp
      ihName := strncpyName args.name }
  { hdr with ihHcrc := tinfCrc32 hdr.bytes }

/-- `main` of `mkimage`: the image file it leaves, modified at `mtime`. -/
def mkimage (args : MkimageArgs) (mtime : BitVec 32) : Option (List (BitVec 8)) := do
  let ep ← args.entryPoint
  let data ← args.payload
  return (args.header tinfCrc32 mtime ep data).bytes ++ data

end

/-! ### The images it builds -/

/-- A file, and the zeros that fill it up to a whole number of words. -/
def padded (file : List (BitVec 8)) : List (BitVec 8) :=
  file ++ if file.length % 4 ≠ 0 then List.replicate (4 - file.length % 4) 0 else []

theorem copyFile_eq {file : List (BitVec 8)} (hpos : file ≠ []) (hlt : file.length < 2 ^ 31)
    (pad : Bool) : copyFile false file pad = some (if pad then padded file else file) := by
  have hlen : file.length ≠ 0 := by simpa using hpos
  have hsize : i32 ((file.length : ℤ) - (0 : ℕ)) = file.length := by
    unfold i32
    rw [Int.bmod_eq_of_le] <;> omega
  rw [copyFile, if_neg hlen, if_neg (by simp)]
  simp only [Bool.false_eq_true, if_false, hsize, List.drop_zero, Int.toNat_natCast,
    List.take_length, if_neg (Int.not_lt.mpr (Int.natCast_nonneg file.length))]
  cases pad with
  | false => simp
  | true => simp [padded]

/-- Every data file can be copied. -/
theorem copyFiles_eq_some {files : List (List (BitVec 8))} (hne : files ≠ [])
    (hfiles : ∀ file ∈ files, file ≠ [] ∧ file.length < 2 ^ 31) :
    ∃ rest, copyFiles false files = some (files.head hne ++ rest) := by
  fun_induction copyFiles false files with
  | case1 => exact absurd rfl hne
  | case2 file =>
      obtain ⟨hpos, hlt⟩ := hfiles file (List.mem_singleton_self file)
      exact ⟨[], by rw [copyFile_eq hpos hlt]; simp⟩
  | case3 file files hnil ih =>
      obtain ⟨hpos, hlt⟩ := hfiles file List.mem_cons_self
      obtain ⟨rest, hrest⟩ :=
        ih (fun h => hnil h) fun f hf => hfiles f (List.mem_cons_of_mem _ hf)
      rw [copyFile_eq hpos hlt, hrest]
      exact ⟨_, by simp [padded]; rfl⟩

/-- The data of a multi-file image. -/
theorem payload_multi {args : MkimageArgs} (hx : args.xflag = false)
    (htype : args.optType = ihTypeMulti) (hne : args.datafiles ≠ [])
    (hfiles : ∀ file ∈ args.datafiles, file ≠ [] ∧ file.length < 2 ^ 31) :
    ∃ rest, args.payload =
      some (sizeTable args.datafiles ++ (args.datafiles.head hne ++ rest)) := by
  obtain ⟨rest, hrest⟩ := copyFiles_eq_some hne hfiles
  refine ⟨rest, ?_⟩
  rw [MkimageArgs.payload, if_pos (.inl htype), hx, hrest]
  rfl

/-- The data of a kernel image. -/
theorem payload_kernel {args : MkimageArgs} {file : List (BitVec 8)} (hx : args.xflag = false)
    (htype : args.optType = ihTypeKernel) (hdata : args.datafiles = [file]) (hpos : file ≠ [])
    (hlt : file.length < 2 ^ 31) : args.payload = some file := by
  have hother : ¬ (args.optType = ihTypeMulti ∨ args.optType = ihTypeScript) := by
    rw [htype]
    decide
  rw [MkimageArgs.payload, if_neg hother, hdata, hx]
  exact copyFile_eq hpos hlt false

/-- The image in front of which the header stands. -/
theorem mkimage_eq (tinfCrc32 : List (BitVec 8) → BitVec 32) {args : MkimageArgs}
    {data : List (BitVec 8)} (mtime : BitVec 32) (hx : args.xflag = false)
    (hdata : args.payload = some data) :
    mkimage tinfCrc32 args mtime =
      some ((args.header tinfCrc32 mtime (args.ep.getD args.addr) data).bytes ++ data) := by
  simp [mkimage, MkimageArgs.entryPoint, hx, hdata]

end RtBoot
