import Mathlib.Tactic.IntervalCases
import RtBoot.LoaderInput

/-!
# The Loader in Both Byte Orders

Header fields are stored big-endian. On a little-endian machine a word read from memory has
its bytes the other way round, and `imtohl` turns them back; on a big-endian one it is the
identity. This module models `linux_loader` with the byte order as a parameter, and keeps a
list of what it uses of the header.

A field is used as it stands in flash if `imtohl` is applied to it once. The loader applies
it twice to three fields of a vendor header, not at all to the address it flushes for a
header of `mkimage`, and it leaves the turned checksum in the header it passes on.

## Main results

* `imtohl_loadWord`: a word read and turned once is the big-endian word.
* `result_linuxLoaderOn`: what the byte order changes in the result; in big-endian order this is
  `linuxLoader` (`turnedLoader_big`).
* `loader_byte_order_iff`: which headers are used as they stand in flash.
-/

namespace RtBoot

/-! ### Words -/

/-- The byte order of a build. -/
inductive ByteOrder
  | big
  | little
  deriving DecidableEq, Repr

/-- A word as the machine reads it. -/
def loadWord : ByteOrder → Mem → BitVec 32 → BitVec 32
  | .big, m, a => load32 m a
  | .little, m, a => m (addr a 3) ++ m (addr a 2) ++ m (addr a 1) ++ m (addr a 0)

/-- The bytes of a word as the machine keeps it. -/
def wordBytes : ByteOrder → BitVec 32 → List (BitVec 8)
  | .big, w => be32 w
  | .little, w => (be32 w).reverse

/-- `imtohl`. -/
def imtohl : ByteOrder → BitVec 32 → BitVec 32
  | .big, x => x
  | .little, x =>
      (x &&& 0x000000ff) <<< 24 ||| (x &&& 0x0000ff00) <<< 8 ||| (x &&& 0x00ff0000) >>> 8 |||
        (x &&& 0xff000000) >>> 24

theorem imtohl_append (a b c d : BitVec 8) :
    imtohl .little (a ++ b ++ c ++ d) = d ++ c ++ b ++ a := by
  refine BitVec.eq_of_getLsbD_eq ?_
  intro i hi
  simp only [imtohl, BitVec.getLsbD_or, BitVec.getLsbD_shiftLeft, BitVec.getLsbD_ushiftRight,
    BitVec.getLsbD_and, BitVec.getLsbD_append]
  -- at each position the masks are known bits
  interval_cases i <;> simp

theorem be32_append (a b c d : BitVec 8) : be32 (a ++ b ++ c ++ d) = [a, b, c, d] :=
  be32_load32 (memOf 0 [a, b, c, d]) 0

section
variable (o : ByteOrder) (m : Mem) (a x : BitVec 32)

/-- **Turned once**, a word is the big-endian word. -/
@[simp] theorem imtohl_loadWord : imtohl o (loadWord o m a) = load32 m a := by
  cases o with
  | big => rfl
  | little => exact imtohl_append ..

theorem loadWord_eq : loadWord o m a = imtohl o (load32 m a) := by
  cases o with
  | big => rfl
  | little => exact (imtohl_append ..).symm

@[simp] theorem imtohl_imtohl : imtohl o (imtohl o x) = x := by
  cases o with
  | big => rfl
  | little => rw [← append_wordByte x, imtohl_append, imtohl_append]

theorem wordBytes_loadWord : wordBytes o (loadWord o m a) = be32 (load32 m a) := by
  cases o with
  | big => rfl
  | little => simp only [wordBytes, loadWord, load32, be32_append, List.reverse_cons,
      List.reverse_nil, List.nil_append, List.cons_append]

@[simp] theorem wordBytes_zero : wordBytes o 0 = be32 0 := by
  cases o with
  | big => rfl
  | little => rfl

theorem loadWord_ne_zero : loadWord o m a ≠ 0 ↔ load32 m a ≠ 0 := by
  have hzero : imtohl o 0 = 0 := by
    cases o with
    | big => rfl
    | little => rfl
  rw [loadWord_eq]
  refine not_congr ⟨fun h => ?_, fun h => by rw [h, hzero]⟩
  rw [← imtohl_imtohl o (load32 m a), h, hzero]

end

/-! ### The model -/

/-- The bytes of a header as the machine keeps it. -/
def ImageHeader.bytesOn (o : ByteOrder) (hdr : ImageHeader) : List (BitVec 8) :=
  wordBytes o hdr.ihMagic ++ (wordBytes o hdr.ihHcrc ++ (wordBytes o hdr.ihTime ++
    (wordBytes o hdr.ihSize ++ (wordBytes o hdr.ihLoad ++ (wordBytes o hdr.ihEp ++
      (wordBytes o hdr.ihDcrc ++
        hdr.ihOs :: hdr.ihArch :: hdr.ihType :: hdr.ihComp :: hdr.ihName.toList))))))

/-- The header that stands at `a`, as the machine reads it. -/
def loadHeaderOn (o : ByteOrder) (m : Mem) (a : BitVec 32) : ImageHeader where
  ihMagic := loadWord o m a
  ihHcrc := loadWord o m (addr a 4)
  ihTime := loadWord o m (addr a 8)
  ihSize := loadWord o m (addr a 12)
  ihLoad := loadWord o m (addr a 16)
  ihEp := loadWord o m (addr a 20)
  ihDcrc := loadWord o m (addr a 24)
  ihOs := m (addr a 28)
  ihArch := m (addr a 29)
  ihType := m (addr a 30)
  ihComp := m (addr a 31)
  ihName := Vector.ofFn fun i => m (addr a (32 + i))

/-- What the loader uses of an image: the length of the data, or of the first file of
several; the address it unpacks to; the address it flushes from the cache; the header it
passes on; the entry point of the kernel. -/
inductive LoaderUse
  | payloadLength (len : BitVec 32)
  | fileLength (len : BitVec 32)
  | loadAddress (a : BitVec 32)
  | flushAddress (a : BitVec 32)
  | header (hdr : ImageHeader)
  | entryPoint (a : BitVec 32)
  deriving DecidableEq

/-- What the loader has used, and what it leaves. -/
structure LoaderRun where
  uses : List LoaderUse
  result : Option (Except LoaderError Booting)

/-- `tpl_to_uboot_header`. -/
def tplToUbootHeaderOn (o : ByteOrder) (m : Mem) (a : BitVec 32) : ImageHeader where
  ihMagic := 0
  ihHcrc := 0
  ihTime := 0
  ihSize := imtohl o (loadWord o m (addr a 0x84))
  ihLoad := imtohl o (loadWord o m (addr a 0x74))
  ihEp := imtohl o (loadWord o m (addr a 0x78))
  ihDcrc := 0
  ihOs := ihOsLinux
  ihArch := ihCpuMips
  ihType := ihTypeKernel
  ihComp := ihCompLzma
  ihName := Vector.replicate _ 0

/-- `ih_header_crc`: its result, and the header it leaves. -/
def ihHeaderCrcOn (o : ByteOrder) (hdr : ImageHeader) : ℕ × ImageHeader :=
  let crcTemp := imtohl o hdr.ihHcrc
  let crc := crc32 0 ({ hdr with ihHcrc := 0 : ImageHeader }.bytesOn o)
  (if crcTemp ≠ crc then 1 else 0, { hdr with ihHcrc := crcTemp })

/-- `ih_data_crc`. -/
def ihDataCrcOn (o : ByteOrder) (m : Mem) (data : BitVec 32) (hdr : ImageHeader) : ℕ :=
  if crc32 0 (readBytes m data (imtohl o hdr.ihSize).toNat) ≠ imtohl o hdr.ihDcrc then 1 else 0

/-- The header at `a`, by its first word, and whether it is of the vendor's format. -/
def findHeaderOn (o : ByteOrder) (m : Mem) (a : BitVec 32) :
    Except LoaderError (ImageHeader × Bool) :=
  let data := loadWord o m a
  if imtohl o data = tplIhVersionV1 ∨ imtohl o data = tplIhVersionV2 then
    .ok (tplToUbootHeaderOn o m a, true)
  else if imtohl o data = ihMagicNumber then .ok (loadHeaderOn o m a, false)
  else .error (.unsupportedHeader data)

/-- `for (i = 1; len_ptr[i]; ++i) data += 4;` -/
def skipSizesOn (o : ByteOrder) (m : Mem) (lenPtr : BitVec 32) :
    (fuel i : ℕ) → (data : BitVec 32) → Option (BitVec 32)
  | 0, _, _ => none
  | fuel + 1, i, data =>
      if loadWord o m (addr lenPtr (4 * i)) ≠ 0 then
        skipSizesOn o m lenPtr fuel (i + 1) (addr data 4)
      else some data

/-- The switch over the type of the image: start and length of the file to unpack. -/
def firstFileOn (o : ByteOrder) (m : Mem) (fuel : ℕ) (hdr : ImageHeader) (data : BitVec 32) :
    Option (Except LoaderError (BitVec 32 × BitVec 32)) :=
  if hdr.ihType = ihTypeKernel then some (.ok (data, imtohl o hdr.ihSize))
  else if hdr.ihType = ihTypeMulti then
    (skipSizesOn o m data fuel 1 (addr data 8)).map fun start =>
      .ok (start, imtohl o (loadWord o m data))
  else some (.error .unsupportedType)

/-- Which length is handed to `lzma_inflate`. -/
def lengthUse (hdr : ImageHeader) (len : BitVec 32) : LoaderUse :=
  if hdr.ihType = ihTypeKernel then .payloadLength len else .fileLength len

/-- `arch_linux_loader`: the address of the kernel. -/
def archLinuxLoader (o : ByteOrder) (hdr : ImageHeader) : BitVec 32 :=
  imtohl o hdr.ihEp

/-- `linux_loader` behind the checks of the checksums. -/
def unpackOn (o : ByteOrder) (lzmaInflate : Mem → InflateCall → BitVec 32 → Inflated) (m : Mem)
    (fuel : ℕ) (hdr : ImageHeader) (data uncLen : BitVec 32) : LoaderRun :=
  match firstFileOn o m fuel hdr data with
  | none => ⟨[], none⟩
  | some (.error e) => ⟨[], some (.error e)⟩
  | some (.ok (start, len)) =>
      if hdr.ihComp = ihCompLzma then
        let load := imtohl o hdr.ihLoad
        let inflated := lzmaInflate m ⟨start, len, load⟩ uncLen
        if inflated.result ≠ 0 then
          ⟨[lengthUse hdr len, .loadAddress load], some (.error (.lzma inflated.result))⟩
        else
          ⟨[lengthUse hdr len, .loadAddress load, .flushAddress hdr.ihLoad, .header hdr,
              .entryPoint (archLinuxLoader o hdr)],
            some (.ok ⟨inflated.memory, (hdr.ihLoad, inflated.uncLen), hdr⟩)⟩
      else ⟨[], some (.error .unsupportedCompression)⟩

/-- `linux_loader`. -/
def linuxLoaderOn (o : ByteOrder) (lzmaInflate : Mem → InflateCall → BitVec 32 → Inflated)
    (m : Mem) (fuel : ℕ) (loadAddr uncLen : BitVec 32) : LoaderRun :=
  match findHeaderOn o m loadAddr with
  | .error e => ⟨[], some (.error e)⟩
  | .ok (hdr, true) =>
      unpackOn o lzmaInflate m fuel hdr (addr loadAddr sizeofTplinkImageHeader) uncLen
  | .ok (hdr, false) =>
      let (mismatch, hdr) := ihHeaderCrcOn o hdr
      if mismatch ≠ 0 then ⟨[], some (.error .headerChecksum)⟩
      else
        let data := addr loadAddr sizeofImageHeader
        let checked := LoaderUse.payloadLength (imtohl o hdr.ihSize)
        if ihDataCrcOn o m data hdr ≠ 0 then ⟨[checked], some (.error .dataChecksum)⟩
        else
          let run := unpackOn o lzmaInflate m fuel hdr data uncLen
          ⟨checked :: run.uses, run.result⟩

/-! ### Both byte orders -/

theorem skipSizesOn_eq (o : ByteOrder) (m : Mem) (lenPtr : BitVec 32) (fuel i : ℕ)
    (data : BitVec 32) : skipSizesOn o m lenPtr fuel i data = skipSizes m lenPtr fuel i data := by
  induction fuel generalizing i data with
  | zero => rfl
  | succ fuel ih => simp only [skipSizesOn, skipSizes, loadWord_ne_zero, ih]

section
variable {o : ByteOrder} {m : Mem} {fuel : ℕ} {a : BitVec 32}

/-- The header that is passed on: the loader has written back the checksum it read. -/
def passedHeader (o : ByteOrder) (m : Mem) (a : BitVec 32) : ImageHeader :=
  { loadHeaderOn o m a with ihHcrc := load32 m (addr a 4) }

theorem findHeaderOn_tpl (h : load32 m a = tplIhVersionV1 ∨ load32 m a = tplIhVersionV2) :
    findHeaderOn o m a = .ok (tplToUbootHeaderOn o m a, true) := by
  simp only [findHeaderOn, imtohl_loadWord, h, if_true]

theorem findHeaderOn_magic (h : load32 m a = ihMagicNumber) :
    findHeaderOn o m a = .ok (loadHeaderOn o m a, false) := by
  have hnot : ¬ (ihMagicNumber = tplIhVersionV1 ∨ ihMagicNumber = tplIhVersionV2) := by decide
  simp only [findHeaderOn, imtohl_loadWord, h, hnot, if_false, if_true]

/-- The check of the header does not depend on the byte order. -/
theorem ihHeaderCrcOn_loadHeaderOn :
    ihHeaderCrcOn o (loadHeaderOn o m a) =
      (ihHeaderCrc (loadHeader m a), passedHeader o m a) := by
  have hbytes : { loadHeaderOn o m a with ihHcrc := 0 : ImageHeader }.bytesOn o =
      { loadHeader m a with ihHcrc := 0 : ImageHeader }.bytes := by
    simp only [ImageHeader.bytesOn, loadHeaderOn, wordBytes_loadWord, wordBytes_zero,
      ImageHeader.bytes, loadHeader]
  simp only [ihHeaderCrcOn, hbytes, ihHeaderCrc, passedHeader]
  refine Prod.ext (if_congr ?_ rfl rfl) ?_
  · rw [ne_comm]
    simp only [loadHeaderOn, imtohl_loadWord, loadHeader]
  · simp only [loadHeaderOn, imtohl_loadWord]

/-- Nor does the check of the data. -/
theorem ihDataCrcOn_passedHeader (data : BitVec 32) :
    ihDataCrcOn o m data (passedHeader o m a) = ihDataCrc m data (loadHeader m a) := by
  have hsize : imtohl o (passedHeader o m a).ihSize = (loadHeader m a).ihSize := imtohl_loadWord ..
  have hdcrc : imtohl o (passedHeader o m a).ihDcrc = (loadHeader m a).ihDcrc := imtohl_loadWord ..
  rw [ihDataCrcOn, hsize, hdcrc, ihDataCrc]

/-- Nor does the file to unpack. -/
theorem firstFileOn_passedHeader (data : BitVec 32) :
    firstFileOn o m fuel (passedHeader o m a) data = firstFile m fuel (loadHeader m a) data := by
  have hsize : imtohl o (passedHeader o m a).ihSize = (loadHeader m a).ihSize := imtohl_loadWord ..
  rw [firstFileOn, hsize, skipSizesOn_eq, imtohl_loadWord]
  rfl

/-- What is used behind the checks of the checksums, whatever `lzma_inflate` does: nothing,
if there is no file to unpack, or else everything. -/
theorem forall_uses_unpackOn {hdr : ImageHeader} {data : BitVec 32} {P : LoaderUse → Prop} :
    (∀ lzmaInflate uncLen, ∀ use ∈ (unpackOn o lzmaInflate m fuel hdr data uncLen).uses, P use) ↔
      ∀ start len, firstFileOn o m fuel hdr data = some (.ok (start, len)) →
        hdr.ihComp = ihCompLzma →
          P (lengthUse hdr len) ∧ P (.loadAddress (imtohl o hdr.ihLoad)) ∧
            P (.flushAddress hdr.ihLoad) ∧ P (.header hdr) ∧
            P (.entryPoint (archLinuxLoader o hdr)) := by
  constructor
  · intro h start len hfile hcomp
    have huses := h (fun m _ n => ⟨0, m, n⟩) 0
    simp only [unpackOn, hfile, hcomp, if_true, ne_eq, not_true_eq_false, if_false,
      List.forall_mem_cons] at huses
    obtain ⟨hlen, hload, hflush, hheader, hentry, -⟩ := huses
    exact ⟨hlen, hload, hflush, hheader, hentry⟩
  · intro h lzmaInflate uncLen use huse
    rw [unpackOn] at huse
    split at huse
    · exact absurd huse List.not_mem_nil
    · exact absurd huse List.not_mem_nil
    next start len hfile =>
    split at huse
    · next hcomp =>
        obtain ⟨hlen, hload, hflush, hheader, hentry⟩ := h start len hfile hcomp
        dsimp only at huse
        split at huse
        · simp only [List.mem_cons, List.not_mem_nil, or_false] at huse
          rcases huse with rfl | rfl
          · exact hlen
          · exact hload
        · simp only [List.mem_cons, List.not_mem_nil, or_false] at huse
          rcases huse with rfl | rfl | rfl | rfl | rfl
          · exact hlen
          · exact hload
          · exact hflush
          · exact hheader
          · exact hentry
    · exact absurd huse List.not_mem_nil

/-! ### The result -/

/-- Behind the checks of the checksums, the file to unpack gives the call, and the call what is
left. -/
theorem result_unpackOn (lzmaInflate : Mem → InflateCall → BitVec 32 → Inflated)
    (hdr : ImageHeader) (data uncLen : BitVec 32) :
    (unpackOn o lzmaInflate m fuel hdr data uncLen).result =
      match firstFileOn o m fuel hdr data with
      | none => none
      | some (.error e) => some (.error e)
      | some (.ok (start, len)) =>
        if hdr.ihComp = ihCompLzma then
          some (afterInflate hdr (lzmaInflate m ⟨start, len, imtohl o hdr.ihLoad⟩ uncLen))
        else some (.error .unsupportedCompression) := by
  rw [unpackOn]
  rcases firstFileOn o m fuel hdr data with - | e | ⟨start, len⟩
  · rfl
  · rfl
  by_cases hcomp : hdr.ihComp = ihCompLzma
  · by_cases hresult : (lzmaInflate m ⟨start, len, imtohl o hdr.ihLoad⟩ uncLen).result = 0
    · simp [hcomp, hresult, afterInflate]
    · simp [hcomp, hresult, afterInflate]
  · simp [hcomp]

/-- The first word of an unknown header is reported as the machine reads it. -/
def LoaderError.asRead (o : ByteOrder) : LoaderError → LoaderError
  | .unsupportedHeader data => .unsupportedHeader (imtohl o data)
  | e => e

/-- What the byte order changes: for a header of `mkimage` the header passed on, for one of
the vendor's format the length and the destination, which are turned a second time. -/
def turnedCall (o : ByteOrder) (m : Mem) (a : BitVec 32) :
    ImageHeader × InflateCall → ImageHeader × InflateCall
  | (hdr, call) =>
      if load32 m a = ihMagicNumber then (passedHeader o m a, call)
      else (hdr, ⟨call.source, imtohl o call.sLen, imtohl o call.dest⟩)

/-- `linux_loader` in a byte order, from the call the model of the target makes. -/
def turnedLoader (o : ByteOrder) (lzmaInflate : Mem → InflateCall → BitVec 32 → Inflated)
    (m : Mem) (fuel : ℕ) (a uncLen : BitVec 32) : Option (Except LoaderError Booting) :=
  match inflateCall m fuel a with
  | none => none
  | some (.error e) => some (.error (e.asRead o))
  | some (.ok p) =>
      let (hdr, call) := turnedCall o m a p
      some (afterInflate hdr (lzmaInflate m call uncLen))

theorem not_magic_of_tpl (h : load32 m a = tplIhVersionV1 ∨ load32 m a = tplIhVersionV2) :
    ¬ load32 m a = ihMagicNumber := by
  rcases h with h | h
  · rw [h]
    decide
  · rw [h]
    decide

/-- The switch over the type refuses an image only for its type. -/
theorem firstFile_eq_error {hdr : ImageHeader} {data : BitVec 32} {e : LoaderError}
    (h : firstFile m fuel hdr data = some (.error e)) : e = .unsupportedType := by
  rw [firstFile] at h
  split at h
  · cases h
  split at h
  · obtain ⟨_, -, hok⟩ := Option.map_eq_some_iff.mp h
    cases hok
  · cases h
    rfl

section
variable (lzmaInflate : Mem → InflateCall → BitVec 32 → Inflated) (uncLen : BitVec 32)

theorem result_linuxLoaderOn_tpl (h : load32 m a = tplIhVersionV1 ∨ load32 m a = tplIhVersionV2) :
    (linuxLoaderOn o lzmaInflate m fuel a uncLen).result =
      turnedLoader o lzmaInflate m fuel a uncLen := by
  have hhdr : tplToUbootHeaderOn o m a = tplToUbootHeader m a := by
    simp only [tplToUbootHeaderOn, imtohl_loadWord, tplToUbootHeader]
  have hfind : findHeader m a = .ok (tplToUbootHeader m a, true) := if_pos h
  simp only [linuxLoaderOn, findHeaderOn_tpl h, result_unpackOn, hhdr, turnedLoader, inflateCall,
    hfind, checkedData, firstFileOn, firstFile, turnedCall, not_magic_of_tpl h]
  rfl

theorem result_linuxLoaderOn_magic (h : load32 m a = ihMagicNumber) :
    (linuxLoaderOn o lzmaInflate m fuel a uncLen).result =
      turnedLoader o lzmaInflate m fuel a uncLen := by
  have hload : imtohl o (passedHeader o m a).ihLoad = (loadHeader m a).ihLoad :=
    imtohl_loadWord ..
  have hcomp : (passedHeader o m a).ihComp = (loadHeader m a).ihComp := rfl
  simp only [linuxLoaderOn, findHeaderOn_magic h, ihHeaderCrcOn_loadHeaderOn,
    ihDataCrcOn_passedHeader, turnedLoader, inflateCall, findHeader_magic h, checkedData,
    Bool.false_eq_true, if_false]
  by_cases hheader : ihHeaderCrc (loadHeader m a) = 0
  · by_cases hdata : ihDataCrc m (addr a sizeofImageHeader) (loadHeader m a) = 0
    · simp only [hheader, hdata, ne_eq, not_true_eq_false, if_false, result_unpackOn,
        firstFileOn_passedHeader, hload, hcomp]
      rcases hfile : firstFile m fuel (loadHeader m a) (addr a sizeofImageHeader) with
        - | e | file
      · rfl
      · obtain rfl := firstFile_eq_error hfile
        rfl
      by_cases hlzma : (loadHeader m a).ihComp = ihCompLzma
      · simp only [hlzma, if_true, turnedCall, h]
      · simp only [hlzma, if_false]
        rfl
    · simp only [hheader, hdata, ne_eq, not_true_eq_false, not_false_eq_true, if_false, if_true]
      rfl
  · simp only [hheader, ne_eq, not_false_eq_true, if_true]
    rfl

/-- **In either byte order** the loader is the one of the target, but for what `turnedCall` and
`asRead` change. -/
theorem result_linuxLoaderOn :
    (linuxLoaderOn o lzmaInflate m fuel a uncLen).result =
      turnedLoader o lzmaInflate m fuel a uncLen := by
  by_cases htpl : load32 m a = tplIhVersionV1 ∨ load32 m a = tplIhVersionV2
  · exact result_linuxLoaderOn_tpl lzmaInflate uncLen htpl
  by_cases hmagic : load32 m a = ihMagicNumber
  · exact result_linuxLoaderOn_magic lzmaInflate uncLen hmagic
  have hfind : findHeader m a = .error (.unsupportedHeader (load32 m a)) := by
    simp only [findHeader, htpl, hmagic, if_false]
  have hfindOn : findHeaderOn o m a = .error (.unsupportedHeader (loadWord o m a)) := by
    simp only [findHeaderOn, imtohl_loadWord, htpl, hmagic, if_false]
  simp only [linuxLoaderOn, hfindOn, turnedLoader, inflateCall, hfind, loadWord_eq]
  rfl

/-- In big-endian order nothing is changed. -/
theorem turnedLoader_big :
    turnedLoader .big lzmaInflate m fuel a uncLen = linuxLoader lzmaInflate m fuel a uncLen := by
  rw [turnedLoader, linuxLoader]
  rcases hcall : inflateCall m fuel a with - | e | ⟨hdr, call⟩
  · rfl
  · cases e <;> rfl
  have hturned : turnedCall .big m a (hdr, call) = (hdr, call) := by
    by_cases hmagic : load32 m a = ihMagicNumber
    · obtain ⟨rfl, -⟩ := (inflateCall_magic_iff hmagic).mp hcall
      exact if_pos hmagic
    · exact if_neg hmagic
  simp only [hturned]

end

/-! ### What is used, and what stands in flash -/

/-- The fields of a header that tell the loader what to do, read big-endian. -/
structure StoredFields where
  size : BitVec 32
  load : BitVec 32
  ep : BitVec 32

/-- The fields of the header in flash at `a`. -/
def storedFields (m : Mem) (a : BitVec 32) : StoredFields :=
  if load32 m a = ihMagicNumber then
    ⟨load32 m (addr a 12), load32 m (addr a 16), load32 m (addr a 20)⟩
  else ⟨load32 m (addr a 0x84), load32 m (addr a 0x74), load32 m (addr a 0x78)⟩

/-- What is used is what stands in flash. The header passed on holds the checksum as it is
stored; a header of the vendor's format has none. -/
def LoaderUse.Right (o : ByteOrder) (m : Mem) (a : BitVec 32) : LoaderUse → Prop
  | .payloadLength len => len = (storedFields m a).size
  | .fileLength len => len = load32 m (addr a sizeofImageHeader)
  | .loadAddress x => x = (storedFields m a).load
  | .flushAddress x => x = (storedFields m a).load
  | .header hdr => load32 m a = ihMagicNumber → hdr.ihHcrc = loadWord o m (addr a 4)
  | .entryPoint x => x = (storedFields m a).ep

/-- Whatever `lzma_inflate` does, all that the loader uses is what stands in flash. -/
def UsesRight (o : ByteOrder) (m : Mem) (a : BitVec 32) : Prop :=
  ∀ fuel lzmaInflate uncLen, ∀ use ∈ (linuxLoaderOn o lzmaInflate m fuel a uncLen).uses,
    use.Right o m a

/-- A header of the vendor's format: three fields are turned a second time. -/
theorem usesRight_tpl_iff (h : load32 m a = tplIhVersionV1 ∨ load32 m a = tplIhVersionV2) :
    UsesRight o m a ↔
      imtohl o (load32 m (addr a 0x84)) = load32 m (addr a 0x84) ∧
        imtohl o (load32 m (addr a 0x74)) = load32 m (addr a 0x74) ∧
        imtohl o (load32 m (addr a 0x78)) = load32 m (addr a 0x78) := by
  have hmagic := not_magic_of_tpl h
  have hstored : storedFields m a =
      ⟨load32 m (addr a 0x84), load32 m (addr a 0x74), load32 m (addr a 0x78)⟩ := if_neg hmagic
  have hfile : ∀ fuel data, firstFileOn o m fuel (tplToUbootHeaderOn o m a) data =
      some (.ok (data, imtohl o (load32 m (addr a 0x84)))) := by
    intro fuel data
    simp only [firstFileOn, tplToUbootHeaderOn, if_true, imtohl_loadWord]
  have huses : UsesRight o m a ↔ ∀ fuel lzmaInflate uncLen,
      ∀ use ∈ (unpackOn o lzmaInflate m fuel (tplToUbootHeaderOn o m a)
        (addr a sizeofTplinkImageHeader) uncLen).uses, use.Right o m a := by
    simp only [UsesRight, linuxLoaderOn, findHeaderOn_tpl h]
  have hlength : ∀ len, lengthUse (tplToUbootHeaderOn o m a) len = .payloadLength len :=
    fun len => if_pos rfl
  have hload : (tplToUbootHeaderOn o m a).ihLoad = load32 m (addr a 0x74) := imtohl_loadWord ..
  have hep : (tplToUbootHeaderOn o m a).ihEp = load32 m (addr a 0x78) := imtohl_loadWord ..
  simp only [huses, forall_uses_unpackOn, hfile, hlength, LoaderUse.Right, hstored,
    archLinuxLoader, hload, hep, hmagic, false_imp_iff, true_and]
  constructor
  · intro hright
    exact hright 0 _ _ rfl rfl
  · rintro hright fuel start len hfile -
    obtain ⟨-, rfl⟩ := Prod.mk.inj (Except.ok.inj (Option.some.inj hfile))
    exact hright

/-- The length handed to `lzma_inflate` for a header of `mkimage` is always right. -/
theorem lengthUse_right {start len : BitVec 32} (h : load32 m a = ihMagicNumber)
    (hfile : firstFile m fuel (loadHeader m a) (addr a sizeofImageHeader) =
      some (.ok (start, len))) : (lengthUse (passedHeader o m a) len).Right o m a := by
  have htype : (passedHeader o m a).ihType = (loadHeader m a).ihType := rfl
  have hstored : (storedFields m a).size = (loadHeader m a).ihSize := by
    rw [storedFields, if_pos h]
    rfl
  rw [firstFile] at hfile
  rw [lengthUse, htype]
  split at hfile
  · next hkernel =>
      obtain ⟨-, rfl⟩ := Prod.mk.inj (Except.ok.inj (Option.some.inj hfile))
      rw [if_pos hkernel, LoaderUse.Right, hstored]
  · next hkernel =>
      rw [if_neg hkernel]
      split at hfile
      · obtain ⟨_, -, hstart⟩ := Option.map_eq_some_iff.mp hfile
        obtain ⟨-, rfl⟩ := Prod.mk.inj (Except.ok.inj hstart)
        rfl
      · exact absurd hfile (by simp)

/-- A header of the format of `mkimage`: the flushed address is not turned, and the checksum
passed on is. -/
theorem usesRight_magic_iff (h : load32 m a = ihMagicNumber) :
    UsesRight o m a ↔ ∀ fuel hdr call, inflateCall m fuel a = some (.ok (hdr, call)) →
      imtohl o (load32 m (addr a 16)) = load32 m (addr a 16) ∧
        imtohl o (load32 m (addr a 4)) = load32 m (addr a 4) := by
  have hstored : storedFields m a =
      ⟨load32 m (addr a 12), load32 m (addr a 16), load32 m (addr a 20)⟩ := if_pos h
  have hsize : imtohl o (passedHeader o m a).ihSize = load32 m (addr a 12) := imtohl_loadWord ..
  have hload : (passedHeader o m a).ihLoad = imtohl o (load32 m (addr a 16)) := loadWord_eq ..
  have hep : imtohl o (passedHeader o m a).ihEp = load32 m (addr a 20) := imtohl_loadWord ..
  have hhcrc : (passedHeader o m a).ihHcrc = load32 m (addr a 4) := rfl
  simp only [inflateCall_magic_iff h]
  constructor
  · rintro hright fuel hdr call ⟨rfl, hheader, hdata, hfile, hcomp, -⟩
    have huses : ∀ lzmaInflate uncLen, ∀ use ∈ (unpackOn o lzmaInflate m fuel (passedHeader o m a)
        (addr a sizeofImageHeader) uncLen).uses, use.Right o m a := by
      intro lzmaInflate uncLen use huse
      refine hright fuel lzmaInflate uncLen use ?_
      simp only [linuxLoaderOn, findHeaderOn_magic h, ihHeaderCrcOn_loadHeaderOn, hheader,
        ihDataCrcOn_passedHeader, hdata, ne_eq, not_true_eq_false, if_false]
      exact List.mem_cons_of_mem _ huse
    obtain ⟨-, -, hflush, hcrc, -⟩ := forall_uses_unpackOn.mp huses _ _
      ((firstFileOn_passedHeader _).trans hfile) hcomp
    simp only [LoaderUse.Right, hstored, hload] at hflush
    simp only [LoaderUse.Right, hhcrc, loadWord_eq] at hcrc
    exact ⟨hflush, (hcrc h).symm⟩
  · intro hright fuel lzmaInflate uncLen use huse
    simp only [linuxLoaderOn, findHeaderOn_magic h, ihHeaderCrcOn_loadHeaderOn,
      ihDataCrcOn_passedHeader, hsize] at huse
    split at huse
    · exact absurd huse List.not_mem_nil
    next hheader =>
    have hchecked : (LoaderUse.payloadLength (load32 m (addr a 12))).Right o m a := by
      rw [LoaderUse.Right, hstored]
    split at huse
    · obtain rfl := List.mem_singleton.mp huse
      exact hchecked
    next hdata =>
    rcases List.mem_cons.mp huse with rfl | huse
    · exact hchecked
    refine forall_uses_unpackOn.mpr ?_ lzmaInflate uncLen use huse
    intro start len hfile hcomp
    rw [firstFileOn_passedHeader] at hfile
    obtain ⟨hflush, hcrc⟩ := hright fuel _ ⟨start, len, (loadHeader m a).ihLoad⟩
      ⟨rfl, not_not.mp hheader, not_not.mp hdata, hfile, hcomp, rfl⟩
    refine ⟨lengthUse_right h hfile, ?_, ?_, ?_, ?_⟩
    · rw [LoaderUse.Right, hload, hstored, imtohl_imtohl]
    · rw [LoaderUse.Right, hload, hstored, hflush]
    · rw [LoaderUse.Right, hhcrc, loadWord_eq, hcrc]
      exact fun _ => rfl
    · rw [LoaderUse.Right, archLinuxLoader, hep, hstored]

/-- **Which headers are used as they stand in flash.** In big-endian order all are. In
little-endian order, a header of the vendor's format is if length, load address and entry
point read the same from both ends; a header of `mkimage` is if load address and checksum
do, or if the loader refuses the image before it unpacks it. -/
theorem loader_byte_order_iff (o : ByteOrder) (m : Mem) (a : BitVec 32) :
    (load32 m a = tplIhVersionV1 ∨ load32 m a = tplIhVersionV2 →
      (UsesRight o m a ↔ o = .big ∨
        ∀ k ∈ [0x84, 0x74, 0x78],
          imtohl .little (load32 m (addr a k)) = load32 m (addr a k))) ∧
    (load32 m a = ihMagicNumber →
      (UsesRight o m a ↔ o = .big ∨
        (∀ fuel hdr call, inflateCall m fuel a ≠ some (.ok (hdr, call))) ∨
        ∀ k ∈ [16, 4], imtohl .little (load32 m (addr a k)) = load32 m (addr a k))) := by
  constructor
  · intro h
    rw [usesRight_tpl_iff h]
    cases o with
    | big => simp [imtohl]
    | little => simp
  · intro h
    rw [usesRight_magic_iff h]
    cases o with
    | big => simp [imtohl]
    | little =>
        constructor
        · intro hright
          by_cases hreach : ∃ fuel hdr call, inflateCall m fuel a = some (.ok (hdr, call))
          · obtain ⟨fuel, hdr, call, hcall⟩ := hreach
            exact .inr (.inr (by simpa using hright fuel hdr call hcall))
          · exact .inr (.inl fun fuel hdr call hcall => hreach ⟨fuel, hdr, call, hcall⟩)
        · rintro (hbig | hnone | hfields) fuel hdr call hcall
          · cases hbig
          · exact absurd hcall (hnone fuel hdr call)
          · simpa using hfields

end

/-- A header of the vendor's format at `0x9F020000`, with nothing but the fields the loader
reads. -/
def vendorImage (load ep len : BitVec 32) : Mem :=
  memOf 0x9F020000 (be32 tplIhVersionV1 ++ List.replicate 0x70 0 ++ be32 load ++ be32 ep ++
    List.replicate 8 0 ++ be32 len)

/-- Fields that read the same from both ends are used as they stand, in either order. -/
theorem loader_byte_order_palindromes :
    UsesRight .little (vendorImage 0x80060680 0x80060680 0x01101001) 0x9F020000 :=
  ((loader_byte_order_iff .little _ 0x9F020000).1 (.inl (by decide +kernel))).mpr
    (.inr (by decide +kernel))

/-- In little-endian order, a kernel with load address `0x80060000` is unpacked to `0x680`
if its header is of the vendor's format, and that address is flushed from the cache if its
header is of the format of `mkimage`. -/
theorem loader_byte_order_swapped :
    .loadAddress 0x00000680 ∈ (linuxLoaderOn .little (fun m _ n => ⟨0, m, n⟩)
        (vendorImage 0x80060000 0x80060000 0x00100000) 1 0x9F020000 0).uses ∧
      ¬ UsesRight .little (vendorImage 0x80060000 0x80060000 0x00100000) 0x9F020000 ∧
      .flushAddress 0x00000680 ∈ (linuxLoaderOn .little (fun m _ n => ⟨0, m, n⟩)
        (multiImage (be32 4 ++ be32 0 ++ [1, 2, 3, 4])) 1 0x9F020000 0).uses ∧
      ¬ UsesRight .little (multiImage (be32 4 ++ be32 0 ++ [1, 2, 3, 4])) 0x9F020000 := by
  have hload : .loadAddress 0x00000680 ∈ (linuxLoaderOn .little (fun m _ n => ⟨0, m, n⟩)
      (vendorImage 0x80060000 0x80060000 0x00100000) 1 0x9F020000 0).uses := by
    decide +kernel
  have hflush : .flushAddress 0x00000680 ∈ (linuxLoaderOn .little (fun m _ n => ⟨0, m, n⟩)
      (multiImage (be32 4 ++ be32 0 ++ [1, 2, 3, 4])) 1 0x9F020000 0).uses := by
    decide +kernel
  refine ⟨hload, fun h => ?_, hflush, fun h => ?_⟩
  · have hright : 0x00000680 = (storedFields _ _).load := h _ _ _ _ hload
    exact absurd hright (by decide +kernel)
  · have hright : 0x00000680 = (storedFields _ _).load := h _ _ _ _ hflush
    exact absurd hright (by decide +kernel)

end RtBoot
