import Mathlib.Algebra.Order.BigOperators.Group.List
import Mathlib.Algebra.Order.Group.Nat
import RtBoot.Image

/-!
# Starting a Linux Image

`linux_loader` looks at the first word of an image in memory. A header of the vendor's
format is converted, with no checksum looked at; a header of the format of `mkimage` is
copied, and its checksum and that of the data are compared. Then the first file of the
image is unpacked with `lzma_inflate` and the board code prepares the start of the kernel.

The target is big-endian, so `imtohl` is the identity. `lzma_inflate` is a parameter. The
loop over the sizes of a multi-file image runs until it reads a zero, so the model gives
it fuel.

## Main results

* `inflateCall_eq_ok_iff`: what the loader has found when it calls `lzma_inflate`.
* `skipSizes_sizeTable`: behind the sizes the tool wrote, the loop stops where the first
  file begins.
* `linuxLoader_mkimage`: **the loader and the tool agree**; the checksums of every image
  the tool builds are found right, and what is unpacked is the first file.
-/

namespace RtBoot

/-! ### The model -/

/-- `TPL_IH_VERSION_V1`. -/
def tplIhVersionV1 : BitVec 32 :=
  0x01000000

/-- `TPL_IH_VERSION_V2`. -/
def tplIhVersionV2 : BitVec 32 :=
  0x02000000

/-- `sizeof(tplink_image_header_t)`. -/
def sizeofTplinkImageHeader : ℕ :=
  512

/-- Why an image is refused. -/
inductive LoaderError
  | unsupportedHeader (data : BitVec 32)
  | headerChecksum
  | dataChecksum
  | unsupportedType
  | unsupportedCompression
  | lzma (code : ℤ)
  deriving DecidableEq, Repr

/-- `tpl_to_uboot_header`: the header of the vendor's format at `a`, converted. -/
def tplToUbootHeader (m : Mem) (a : BitVec 32) : ImageHeader where
  ihMagic := 0
  ihHcrc := 0
  ihTime := 0
  ihSize := load32 m (addr a 0x84)
  ihLoad := load32 m (addr a 0x74)
  ihEp := load32 m (addr a 0x78)
  ihDcrc := 0
  ihOs := ihOsLinux
  ihArch := ihCpuMips
  ihType := ihTypeKernel
  ihComp := ihCompLzma
  ihName := Vector.replicate _ 0

/-- `ih_header_crc`: zero if the checksum over the header is right. -/
def ihHeaderCrc (hdr : ImageHeader) : ℕ :=
  if crc32 0 { hdr with ihHcrc := 0 : ImageHeader }.bytes ≠ hdr.ihHcrc then 1 else 0

/-- `ih_data_crc`: zero if the checksum over the data at `data` is right. -/
def ihDataCrc (m : Mem) (data : BitVec 32) (hdr : ImageHeader) : ℕ :=
  if crc32 0 (readBytes m data hdr.ihSize.toNat) ≠ hdr.ihDcrc then 1 else 0

/-- The header at `a`, by its first word, and whether it is of the vendor's format
(`tpl_type`). -/
def findHeader (m : Mem) (a : BitVec 32) : Except LoaderError (ImageHeader × Bool) :=
  let data := load32 m a
  if data = tplIhVersionV1 ∨ data = tplIhVersionV2 then .ok (tplToUbootHeader m a, true)
  else if data = ihMagicNumber then .ok (loadHeader m a, false)
  else .error (.unsupportedHeader data)

/-- The checks of the checksums, and where the data begins. -/
def checkedData (m : Mem) (a : BitVec 32) (hdr : ImageHeader) (tplType : Bool) :
    Except LoaderError (BitVec 32) :=
  if tplType then .ok (addr a sizeofTplinkImageHeader)
  else if ihHeaderCrc hdr ≠ 0 then .error .headerChecksum
  else
    let data := addr a sizeofImageHeader
    if ihDataCrc m data hdr ≠ 0 then .error .dataChecksum else .ok data

/-- `for (i = 1; len_ptr[i]; ++i) data += 4;` -/
def skipSizes (m : Mem) (lenPtr : BitVec 32) : (fuel i : ℕ) → (data : BitVec 32) →
    Option (BitVec 32)
  | 0, _, _ => none
  | fuel + 1, i, data =>
      if load32 m (addr lenPtr (4 * i)) ≠ 0 then skipSizes m lenPtr fuel (i + 1) (addr data 4)
      else some data

/-- The switch over the type of the image: start and length of the file to unpack. -/
def firstFile (m : Mem) (fuel : ℕ) (hdr : ImageHeader) (data : BitVec 32) :
    Option (Except LoaderError (BitVec 32 × BitVec 32)) :=
  if hdr.ihType = ihTypeKernel then some (.ok (data, hdr.ihSize))
  else if hdr.ihType = ihTypeMulti then
    (skipSizes m data fuel 1 (addr data 8)).map fun start => .ok (start, load32 m data)
  else some (.error .unsupportedType)

/-- The arguments of `lzma_inflate`: source, its length, and destination. -/
structure InflateCall where
  source : BitVec 32
  sLen : BitVec 32
  dest : BitVec 32
  deriving DecidableEq, Repr

/-- `linux_loader` up to the call of `lzma_inflate`. -/
def inflateCall (m : Mem) (fuel : ℕ) (loadAddr : BitVec 32) :
    Option (Except LoaderError (ImageHeader × InflateCall)) :=
  match findHeader m loadAddr with
  | .error e => some (.error e)
  | .ok (hdr, tplType) =>
    match checkedData m loadAddr hdr tplType with
    | .error e => some (.error e)
    | .ok data =>
      match firstFile m fuel hdr data with
      | none => none
      | some (.error e) => some (.error e)
      | some (.ok (start, len)) =>
        if hdr.ihComp = ihCompLzma then some (.ok (hdr, ⟨start, len, hdr.ihLoad⟩))
        else some (.error .unsupportedCompression)

/-- What `lzma_inflate` leaves: its result, the memory, and the unpacked length. -/
structure Inflated where
  result : ℤ
  memory : Mem
  uncLen : BitVec 32

/-- What `linux_loader` leaves when it succeeds: the memory, the range flushed from the
cache, and the header handed to the board's loader. -/
structure Booting where
  memory : Mem
  flushed : BitVec 32 × BitVec 32
  header : ImageHeader

/-- `linux_loader` behind the call of `lzma_inflate`. -/
def afterInflate (hdr : ImageHeader) (inflated : Inflated) : Except LoaderError Booting :=
  if inflated.result ≠ 0 then .error (.lzma inflated.result)
  else .ok ⟨inflated.memory, (hdr.ihLoad, inflated.uncLen), hdr⟩

/-- `linux_loader`. -/
def linuxLoader (lzmaInflate : Mem → InflateCall → BitVec 32 → Inflated) (m : Mem) (fuel : ℕ)
    (loadAddr uncLen : BitVec 32) : Option (Except LoaderError Booting) :=
  match inflateCall m fuel loadAddr with
  | none => none
  | some (.error e) => some (.error e)
  | some (.ok (hdr, call)) => some (afterInflate hdr (lzmaInflate m call uncLen))

/-! ### The header -/

variable {fuel : ℕ} {files : List (List (BitVec 8))}

section
variable {m : Mem} {a : BitVec 32} {hdr : ImageHeader} {data : List (BitVec 8)}

/-- Memory holds an image: a header with both checksums right, and its data. -/
structure ImageAt (m : Mem) (a : BitVec 32) (hdr : ImageHeader) (data : List (BitVec 8)) :
    Prop where
  magic : hdr.ihMagic = ihMagicNumber
  size : hdr.ihSize.toNat = data.length
  hcrc : hdr.ihHcrc = crc32 0 { hdr with ihHcrc := 0 : ImageHeader }.bytes
  dcrc : hdr.ihDcrc = crc32 0 data
  bytes : BytesAt m a hdr.bytes
  data : BytesAt m (addr a sizeofImageHeader) data

/-- An image of the tool, put into memory. -/
theorem imageAt_header {tinfCrc32 : List (BitVec 8) → BitVec 32} {args : MkimageArgs}
    {mtime ep : BitVec 32} (htinf : ∀ l, tinfCrc32 l = crc32 0 l)
    (hlen : ((args.header tinfCrc32 mtime ep data).bytes ++ data).length ≤ 2 ^ 32)
    (h : BytesAt m a ((args.header tinfCrc32 mtime ep data).bytes ++ data)) :
    ImageAt m a (args.header tinfCrc32 mtime ep data) data := by
  rw [List.length_append, length_imageHeader_bytes, sizeofImageHeader] at hlen
  rw [bytesAt_append, length_imageHeader_bytes] at h
  exact
    { magic := rfl
      size := by
        rw [MkimageArgs.header, BitVec.toNat_ofNat]
        exact Nat.mod_eq_of_lt (by omega)
      hcrc := htinf _
      dcrc := htinf _
      bytes := h.1
      data := h.2 }

theorem ImageAt.headerCrc (h : ImageAt m a hdr data) : ihHeaderCrc hdr = 0 := by
  rw [ihHeaderCrc, ← h.hcrc]
  simp

theorem ImageAt.dataCrc (h : ImageAt m a hdr data) :
    ihDataCrc m (addr a sizeofImageHeader) hdr = 0 := by
  rw [ihDataCrc, h.size, h.data.read, ← h.dcrc]
  simp

/-- A header that begins with the magic number is copied. -/
theorem findHeader_magic (h : load32 m a = ihMagicNumber) :
    findHeader m a = .ok (loadHeader m a, false) := by
  rw [findHeader, h]
  rfl

/-- The data of a header of `mkimage` begins behind it, if both checksums are right. -/
theorem checkedData_eq_ok_iff {data : BitVec 32} :
    checkedData m a hdr false = .ok data ↔
      ihHeaderCrc hdr = 0 ∧ ihDataCrc m (addr a sizeofImageHeader) hdr = 0 ∧
        addr a sizeofImageHeader = data := by
  by_cases hheader : ihHeaderCrc hdr = 0
  · by_cases hdata : ihDataCrc m (addr a sizeofImageHeader) hdr = 0
    · simp [checkedData, hheader, hdata]
    · simp [checkedData, hheader, hdata]
  · simp [checkedData, hheader]

/-- **What the loader has found** when it calls `lzma_inflate`. -/
theorem inflateCall_eq_ok_iff {call : InflateCall} :
    inflateCall m fuel a = some (.ok (hdr, call)) ↔
      ∃ tplType data, findHeader m a = .ok (hdr, tplType) ∧
        checkedData m a hdr tplType = .ok data ∧
        firstFile m fuel hdr data = some (.ok (call.source, call.sLen)) ∧
        hdr.ihComp = ihCompLzma ∧ call.dest = hdr.ihLoad := by
  constructor
  · intro h
    rw [inflateCall] at h
    split at h
    · exact absurd h (by simp)
    next hdr' tplType hfind =>
    split at h
    · exact absurd h (by simp)
    next data hdata =>
    split at h
    · exact absurd h (by simp)
    · exact absurd h (by simp)
    next start len hfile =>
    split at h
    · next hcomp =>
        simp only [Option.some.injEq, Except.ok.injEq, Prod.mk.injEq] at h
        obtain ⟨rfl, rfl⟩ := h
        exact ⟨tplType, data, hfind, hdata, hfile, hcomp, rfl⟩
    · exact absurd h (by simp)
  · rintro ⟨tplType, data, hfind, hdata, hfile, hcomp, hdest⟩
    obtain ⟨source, sLen, dest⟩ := call
    obtain rfl : dest = hdr.ihLoad := hdest
    simp only [inflateCall, hfind, hdata, hfile, hcomp, if_true]

/-- The loader accepts the header, finds the checksums right and goes on to the data. -/
theorem ImageAt.inflateCall_eq (h : ImageAt m a hdr data) {start len : BitVec 32}
    (hcomp : hdr.ihComp = ihCompLzma)
    (hfile : firstFile m fuel hdr (addr a sizeofImageHeader) = some (.ok (start, len))) :
    inflateCall m fuel a = some (.ok (hdr, ⟨start, len, hdr.ihLoad⟩)) := by
  have hload : loadHeader m a = hdr := loadHeader_eq h.bytes
  have hword : load32 m a = ihMagicNumber := by
    rw [← h.magic, ← hload]
    rfl
  have hheader : findHeader m a = .ok (hdr, false) := by
    rw [findHeader_magic hword, hload]
  have hdata : checkedData m a hdr false = .ok (addr a sizeofImageHeader) :=
    checkedData_eq_ok_iff.mpr ⟨h.headerCrc, h.dataCrc, rfl⟩
  exact inflateCall_eq_ok_iff.mpr ⟨false, _, hheader, hdata, hfile, hcomp, rfl⟩

end

/-! ### The sizes -/

/-- **Behind the sizes**: started at the second size, the loop ends with the pointer moved
over all that follow and the zero. -/
theorem skipSizes_sizeTable {m : Mem} {lenPtr : BitVec 32}
    {rest : List (BitVec 8)} {i : ℕ} {data : BitVec 32}
    (hsizes : ∀ file ∈ files, BitVec.ofNat 32 file.length ≠ 0) (hfuel : files.length < fuel)
    (h : BytesAt m (addr lenPtr (4 * i)) (sizeTable files ++ rest)) :
    skipSizes m lenPtr fuel i data = some (addr data (4 * files.length)) := by
  induction files generalizing i fuel data with
  | nil =>
      obtain ⟨fuel, rfl⟩ := Nat.exists_eq_add_of_lt hfuel
      have hzero : load32 m (addr lenPtr (4 * i)) = 0 := (h.word).1
      simp [skipSizes, hzero]
  | cons file files ih =>
      obtain ⟨fuel, rfl⟩ := Nat.exists_eq_add_of_lt (Nat.zero_lt_of_lt hfuel)
      rw [sizeTable, List.flatMap_cons, List.append_assoc, List.append_assoc] at h
      obtain ⟨hword, hrest⟩ := h.word
      rw [addr_addr, ← List.append_assoc, show 4 * i + 4 = 4 * (i + 1) by omega] at hrest
      have hne := hsizes file List.mem_cons_self
      rw [List.length_cons] at hfuel
      rw [show 0 + fuel + 1 = fuel + 1 by omega] at hfuel ⊢
      rw [skipSizes, hword, if_pos hne,
        ih (fun f hf => hsizes f (List.mem_cons_of_mem _ hf)) (by omega) hrest, addr_addr,
        List.length_cons, show 4 + 4 * files.length = 4 * (files.length + 1) by omega]

/-! ### The loader and the tool -/

/-- Where the first data file stands in an image. -/
def MkimageArgs.firstFileOffset (args : MkimageArgs) : ℕ :=
  sizeofImageHeader +
    if args.optType = ihTypeMulti then (sizeTable args.datafiles).length else 0

theorem length_sizeTable (files : List (List (BitVec 8))) :
    (sizeTable files).length = 4 * (files.length + 1) := by
  induction files with
  | nil => rfl
  | cons file files ih =>
      simp only [sizeTable, List.flatMap_cons, List.length_append, length_be32,
        List.length_cons] at ih ⊢
      omega

/-- The first file of a multi-file image, behind its header. -/
theorem firstFile_multi {m : Mem} {hdr : ImageHeader} {data : BitVec 32}
    {file rest : List (BitVec 8)} (htype : hdr.ihType = ihTypeMulti)
    (hsizes : ∀ f ∈ file :: files, f ≠ [] ∧ f.length < 2 ^ 31) (hfuel : files.length < fuel)
    (h : BytesAt m data (sizeTable (file :: files) ++ rest)) :
    firstFile m fuel hdr data =
      some (.ok (addr data (sizeTable (file :: files)).length, BitVec.ofNat 32 file.length)) := by
  have hne : ∀ f ∈ files, BitVec.ofNat 32 f.length ≠ 0 := by
    intro f hf hzero
    obtain ⟨hpos, hlt⟩ := hsizes f (List.mem_cons_of_mem _ hf)
    have hlen := congrArg BitVec.toNat hzero
    rw [BitVec.toNat_ofNat, Nat.mod_eq_of_lt (by omega)] at hlen
    exact hpos (List.length_eq_zero_iff.mp hlen)
  rw [sizeTable, List.flatMap_cons, List.append_assoc, List.append_assoc] at h
  obtain ⟨hlen, htail⟩ := h.word
  have hrest : BytesAt m (addr data (4 * 1)) (sizeTable files ++ rest) := by
    rwa [← List.append_assoc] at htail
  have hskip : skipSizes m data fuel 1 (addr data 8) =
      some (addr data (sizeTable (file :: files)).length) := by
    rw [skipSizes_sizeTable hne hfuel hrest, addr_addr, length_sizeTable, List.length_cons,
      show 8 + 4 * files.length = 4 * (files.length + 1 + 1) by omega]
  have hnot : ¬ hdr.ihType = ihTypeKernel := by
    rw [htype]
    decide
  rw [firstFile, if_neg hnot, if_pos htype, hskip, hlen]
  rfl

/-- In both types of image the data is what the loader skips, the first file, and the rest;
the loader finds the file there. -/
theorem firstFile_payload {args : MkimageArgs} {file : List (BitVec 8)}
    (hfiles : args.datafiles = file :: files)
    (hsizes : ∀ f ∈ args.datafiles, f ≠ [] ∧ f.length < 2 ^ 31) (hx : args.xflag = false)
    (htype : args.optType = ihTypeMulti ∨ args.optType = ihTypeKernel ∧ files = []) :
    ∃ skipped rest, args.payload = some (skipped ++ (file ++ rest)) ∧
      args.firstFileOffset = sizeofImageHeader + skipped.length ∧
      ∀ m a hdr, hdr.ihType = args.optType →
        hdr.ihSize.toNat = (skipped ++ (file ++ rest)).length →
        BytesAt m a (skipped ++ (file ++ rest)) → ∀ fuel ≥ args.datafiles.length,
          firstFile m fuel hdr a =
            some (.ok (addr a skipped.length, BitVec.ofNat 32 file.length)) := by
  rcases htype with htype | ⟨htype, rfl⟩
  · obtain ⟨rest, hrest⟩ := payload_multi hx htype (by simp [hfiles]) hsizes
    simp only [hfiles, List.head_cons] at hrest
    refine ⟨sizeTable (file :: files), rest, hrest, ?_, ?_⟩
    · rw [MkimageArgs.firstFileOffset, if_pos htype, hfiles]
    · intro m a hdr htype' _ hat fuel hfuel
      rw [hfiles] at hsizes hfuel
      exact firstFile_multi (htype'.trans htype) hsizes hfuel hat
  · obtain ⟨hpos, hlt⟩ := hsizes file (by simp [hfiles])
    refine ⟨[], [], ?_, ?_, ?_⟩
    · rw [payload_kernel hx htype hfiles hpos hlt]
      simp
    · rw [MkimageArgs.firstFileOffset, htype]
      rfl
    · intro m a hdr htype' hsize _ fuel _
      have hlen : hdr.ihSize = BitVec.ofNat 32 file.length := by
        refine BitVec.eq_of_toNat_eq ?_
        rw [hsize, BitVec.toNat_ofNat, Nat.mod_eq_of_lt (by omega)]
        simp
      rw [firstFile, if_pos (htype'.trans htype), hlen]
      simp

/-- **The loader and the tool agree**: with the loader's checksum in the tool, an image of
type multi (of any files that are not empty) or of type kernel (of one such file) is built,
and wherever it stands in memory, the loader finds both checksums right and calls
`lzma_inflate` with start and length of the first file and the given load address. -/
theorem linuxLoader_mkimage (tinfCrc32 : List (BitVec 8) → BitVec 32)
    (htinf : ∀ l, tinfCrc32 l = crc32 0 l) (args : MkimageArgs) (mtime : BitVec 32)
    {file : List (BitVec 8)} {files : List (List (BitVec 8))}
    (hfiles : args.datafiles = file :: files) (hpos : ∀ f ∈ args.datafiles, f ≠ [])
    (htotal : (args.datafiles.map List.length).sum < 2 ^ 31) (hx : args.xflag = false)
    (hcomp : args.optComp = ihCompLzma)
    (htype : args.optType = ihTypeMulti ∨ args.optType = ihTypeKernel ∧ files = []) :
    ∃ image, mkimage tinfCrc32 args mtime = some image ∧
      ∀ (m : Mem) (loadAddr : BitVec 32), image.length ≤ 2 ^ 32 → BytesAt m loadAddr image →
        ihHeaderCrc (loadHeader m loadAddr) = 0 ∧
        ihDataCrc m (addr loadAddr sizeofImageHeader) (loadHeader m loadAddr) = 0 ∧
        ∃ call : InflateCall,
          call.source = addr loadAddr args.firstFileOffset ∧ BytesAt m call.source file ∧
          call.sLen.toNat = file.length ∧ call.dest = args.addr ∧
          ∀ lzmaInflate, ∀ fuel ≥ args.datafiles.length, ∀ uncLen,
            linuxLoader lzmaInflate m fuel loadAddr uncLen =
              some (afterInflate (loadHeader m loadAddr) (lzmaInflate m call uncLen)) := by
  have hsizes : ∀ f ∈ args.datafiles, f ≠ [] ∧ f.length < 2 ^ 31 := by
    intro f hf
    have hle := List.le_sum_of_mem (List.mem_map_of_mem (f := List.length) hf)
    exact ⟨hpos f hf, by omega⟩
  obtain ⟨-, hlt⟩ := hsizes file (by simp [hfiles])
  obtain ⟨skipped, rest, hdata, hoffset, hfirst⟩ := firstFile_payload hfiles hsizes hx htype
  refine ⟨_, mkimage_eq tinfCrc32 mtime hx hdata, ?_⟩
  intro m loadAddr hlen hat
  have himage := imageAt_header htinf hlen hat
  rw [loadHeader_eq himage.bytes]
  refine ⟨himage.headerCrc, himage.dataCrc,
    ⟨addr (addr loadAddr sizeofImageHeader) skipped.length, BitVec.ofNat 32 file.length,
      args.addr⟩, ?_, ?_, ?_, rfl, ?_⟩
  · rw [addr_addr, hoffset]
  · exact (bytesAt_append.mp (bytesAt_append.mp himage.data).2).1
  · rw [BitVec.toNat_ofNat]
    exact Nat.mod_eq_of_lt (by omega)
  · intro lzmaInflate fuel hfuel uncLen
    have hcall := himage.inflateCall_eq hcomp
      (hfirst m _ _ rfl himage.size himage.data fuel hfuel)
    rw [linuxLoader, hcall]
    rfl

/-- Options for an image of two files, the first shorter than a word. -/
def twoFiles : MkimageArgs :=
  { optType := ihTypeMulti, optComp := ihCompLzma, addr := 0x80060000, name := [107],
    datafiles := [[1, 2, 3], [4]] }

/-- The loader unpacks three bytes behind the header and the three words of the sizes. -/
theorem linuxLoader_mkimage_two :
    ∃ image ∈ mkimage (crc32 0) twoFiles 0, ∀ lzmaInflate uncLen,
      linuxLoader lzmaInflate (memOf 0x9F020000 image) 2 0x9F020000 uncLen =
        some (afterInflate (loadHeader (memOf 0x9F020000 image) 0x9F020000)
          (lzmaInflate (memOf 0x9F020000 image) ⟨0x9F02004C, 3, 0x80060000⟩ uncLen)) := by
  obtain ⟨image, himage, h⟩ := linuxLoader_mkimage (crc32 0) (fun _ => rfl) twoFiles 0 rfl
    (by decide) (by decide) rfl rfl (.inl rfl)
  have hlength : (mkimage (crc32 0) twoFiles 0).map List.length = some 81 := by
    decide +kernel
  rw [himage, Option.map_some, Option.some.injEq] at hlength
  obtain ⟨-, -, call, hsource, -, hlen, hdest, hcall⟩ :=
    h _ 0x9F020000 (by omega) (bytesAt_memOf (by omega))
  have hcall_eq : call = ⟨0x9F02004C, 3, 0x80060000⟩ := by
    obtain ⟨source, sLen, dest⟩ := call
    obtain rfl : source = 0x9F02004C := hsource
    obtain rfl : dest = 0x80060000 := hdest
    obtain rfl : sLen = 3 := BitVec.eq_of_toNat_eq hlen
    rfl
  refine ⟨image, himage, fun lzmaInflate uncLen => ?_⟩
  rw [hcall lzmaInflate 2 (by decide) uncLen, hcall_eq]

end RtBoot
