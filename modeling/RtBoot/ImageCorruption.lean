import RtBoot.BurstError
import RtBoot.LinuxLoader

/-!
# Corrupted Images

An image of the format of `mkimage` carries one checksum over its header and one over its
data. `crc32` works with a table of sixteen words, four bits at a time; two turns make the
shift by a byte of a cyclic redundancy check with a remainder of 32 bits, so no error that
is confined to four consecutive bytes goes undetected.

The two checks depend on each other: the header says how many bytes the second one covers.
An error in the header is found before its size is used.

## Main results

* `shiftsBytes_crc32`: two turns with the table shift the remainder by a byte.
* `Corrupted.crc32_ne`: a burst of up to four bytes changes the checksum.
* `linuxLoader_detects_corruption`: **the loader refuses an image in which up to four
  consecutive bytes of header or data were changed**, before it unpacks anything.
-/

namespace RtBoot

/-! ### The checksum as a remainder -/

/-- The table as a function of four bits. -/
def crc32Entry (x : BitVec 4) : BitVec 32 :=
  crc32tab.getD x.toNat 0

theorem crc32Entry_xor : ∀ x y, crc32Entry (x ^^^ y) = crc32Entry x ^^^ crc32Entry y := by
  decide

/-- The highest four bits of an entry tell the entries apart. -/
theorem crc32Entry_high : ∀ x, crc32Entry x >>> 28 = 0#32 → x = 0#4 := by
  decide

theorem crc32Nibble_eq (x : BitVec 32) :
    crc32Nibble x = crc32Entry (x.setWidth 4) ^^^ (x >>> 4) := by
  have hlow : (x &&& 0x0f).toNat = (x.setWidth 4).toNat := by
    rw [BitVec.toNat_and, BitVec.toNat_setWidth]
    exact Nat.and_two_pow_sub_one_eq_mod x.toNat 4
  rw [crc32Nibble, crc32Entry, hlow]

theorem crc32Nibble_xor (x y : BitVec 32) :
    crc32Nibble (x ^^^ y) = crc32Nibble x ^^^ crc32Nibble y := by
  simp only [crc32Nibble_eq, BitVec.setWidth_xor, crc32Entry_xor, BitVec.ushiftRight_xor_distrib]
  ac_rfl

/-- Where nothing stands in the highest four places, the turn only moved. -/
theorem crc32Nibble_moved {x : BitVec 32} (h : (crc32Nibble x).toNat < 2 ^ 28) :
    x.toNat = (crc32Nibble x).toNat * 2 ^ 4 := by
  have hhigh : crc32Nibble x >>> 28 = 0#32 := by
    refine BitVec.eq_of_toNat_eq ?_
    rw [BitVec.toNat_ushiftRight, Nat.shiftRight_eq_div_pow, Nat.div_eq_of_lt h]
    rfl
  have hout : x >>> 4 >>> 28 = 0#32 := by
    rw [← BitVec.shiftRight_add]
    exact BitVec.ushiftRight_eq_zero (Nat.le_refl 32)
  have hlow : x.setWidth 4 = 0#4 := by
    refine crc32Entry_high _ ?_
    rwa [crc32Nibble_eq, BitVec.ushiftRight_xor_distrib, hout, BitVec.xor_zero] at hhigh
  have hentry : crc32Entry 0#4 = 0#32 := rfl
  have hmod := congrArg BitVec.toNat hlow
  rw [BitVec.toNat_setWidth, BitVec.toNat_zero] at hmod
  rw [crc32Nibble_eq, hlow, hentry, BitVec.zero_xor, BitVec.toNat_ushiftRight,
    Nat.shiftRight_eq_div_pow]
  omega

/-- The shift of `crc32` by a byte. -/
def crc32Shift (x : BitVec 32) : BitVec 32 :=
  crc32Nibble (crc32Nibble x)

/-- **Two turns with the table shift the remainder by a byte.** -/
theorem shiftsBytes_crc32 : ShiftsBytes crc32Shift where
  xor x y := by rw [crc32Shift, crc32Nibble_xor, crc32Nibble_xor, crc32Shift, crc32Shift]
  moved x h := by
    have hsecond := crc32Nibble_moved (x := crc32Nibble x) (Nat.lt_of_lt_of_le h (by decide))
    have hfirst := crc32Nibble_moved (x := x) (by rw [crc32Shift] at h; omega)
    rw [hfirst, hsecond, crc32Shift]
    omega

theorem crc32_eq_remainder (crc : BitVec 32) {data : List (BitVec 8)} (h : data ≠ []) :
    crc32 crc data = remainder crc32Shift (crc ^^^ 0xffffffff) data ^^^ 0xffffffff := by
  have hlen : data.length ≠ 0 := by simpa using h
  rw [crc32, if_neg hlen]
  rfl

/-- Checksums over as many bytes differ when the remainders do. -/
theorem crc32_ne {bs cs : List (BitVec 8)} (hlen : bs.length = cs.length) (hbs : bs ≠ [])
    (h : remainder crc32Shift 0xffffffff bs ≠ remainder crc32Shift 0xffffffff cs) :
    crc32 0 bs ≠ crc32 0 cs := by
  have hcs : cs ≠ [] := by
    rintro rfl
    exact hbs (List.length_eq_zero_iff.mp hlen)
  rw [crc32_eq_remainder 0 hbs, crc32_eq_remainder 0 hcs]
  intro heq
  exact h ((BitVec.xor_left_inj _).mp heq)

/-! ### Corrupted memory -/

/-- `m'` is `m` with at least one byte changed, all inside a window of at most four of the
bytes from `lo` to `hi` behind `base`. -/
def Corrupted (m m' : Mem) (base : BitVec 32) (lo hi : ℕ) : Prop :=
  ∃ p n, n ≤ 4 ∧ lo ≤ p ∧ p + n ≤ hi ∧
    (∀ x, (∀ i, p ≤ i → i < p + n → x ≠ addr base i) → m' x = m x) ∧
    ∃ i, p ≤ i ∧ i < p + n ∧ m' (addr base i) ≠ m (addr base i)

section
variable {m m' : Mem} {base : BitVec 32} {lo len : ℕ}

/-- Bytes in front of the range are as they were. -/
theorem Corrupted.same (h : Corrupted m m' base lo (lo + len)) (hlen : lo + len ≤ 2 ^ 32) {i : ℕ}
    (hi : i < lo) : m' (addr base i) = m (addr base i) := by
  obtain ⟨p, n, -, hlo, hend, hsame, -⟩ := h
  refine hsame _ fun j hp hn heq => ?_
  have := addr_injOn (by omega) (by omega) heq
  omega

/-- **A burst of up to four bytes changes the remainder** of the range. -/
theorem Corrupted.remainder_ne (h : Corrupted m m' base lo (lo + len))
    (hlen : lo + len ≤ 2 ^ 32) (r : BitVec 32) :
    remainder crc32Shift r (readBytes m (addr base lo) len) ≠
      remainder crc32Shift r (readBytes m' (addr base lo) len) := by
  obtain ⟨p, n, hn, hlo, hend, hsame, i, hpi, hin, hdiff⟩ := h
  refine shiftsBytes_crc32.remainder_ne_of_window r (p := p - lo) (n := n) ?_ (by omega) ?_ ?_
  · simp [readBytes]
  · intro j hj
    rw [getElem?_readBytes, getElem?_readBytes]
    split
    · next hjlen =>
        rw [addr_addr, hsame]
        intro k hk hkn heq
        have := addr_injOn (by omega) (by omega) heq
        omega
    · rfl
  · intro heq
    have hbyte := congrArg (·[i - lo]?) heq
    simp only [getElem?_readBytes, addr_addr, if_pos (show i - lo < len by omega),
      Nat.add_sub_cancel' (Nat.le_trans hlo hpi), Option.some.injEq] at hbyte
    exact hdiff hbyte.symm

end

/-! ### The header in memory -/

/-- The bytes the header's checksum covers: those in memory, but for its own field. -/
theorem bytes_loadHeader (m : Mem) (a hcrc : BitVec 32) :
    { loadHeader m a with ihHcrc := hcrc : ImageHeader }.bytes =
      readBytes m a 4 ++ be32 hcrc ++ readBytes m (addr a 8) 56 := by
  have hname : (Vector.ofFn fun i : Fin ihNmlen => m (addr a (32 + i))).toList =
      readBytes m (addr a 32) 32 := by
    refine List.ext_getElem (by simp [readBytes]) fun i _ _ => ?_
    simp [readBytes, addr_addr]
  have hbyte : ∀ b, readBytes m b 1 = [m b] := fun b => by simp [readBytes]
  have hsize : 56 = 4 + (4 + (4 + (4 + (4 + (1 + (1 + (1 + (1 + 32)))))))) := rfl
  rw [hsize]
  simp only [readBytes_add, addr_addr, hbyte, ImageHeader.bytes, loadHeader, be32_load32, hname,
    List.append_assoc, List.cons_append, List.nil_append]

/-- The header depends on its 64 bytes only. -/
theorem loadHeader_congr {m m' : Mem} {a : BitVec 32}
    (h : ∀ k < sizeofImageHeader, m' (addr a k) = m (addr a k)) :
    loadHeader m' a = loadHeader m a := by
  have hbytes : (loadHeader m a).bytes = readBytes m a 64 := by
    have hload : (loadHeader m a).bytes = readBytes m a 4 ++ be32 (load32 m (addr a 4)) ++
        readBytes m (addr a 8) 56 := bytes_loadHeader m a _
    rw [hload, be32_load32, ← readBytes_add, ← readBytes_add]
  refine loadHeader_eq fun i b hb => ?_
  rw [hbytes, getElem?_readBytes] at hb
  split at hb
  · next hi => exact (h i hi).trans (Option.some.inj hb)
  · exact absurd hb (by simp)

/-! ### The loader -/

theorem ihHeaderCrc_eq_zero_iff {hdr : ImageHeader} :
    ihHeaderCrc hdr = 0 ↔ crc32 0 { hdr with ihHcrc := 0 : ImageHeader }.bytes = hdr.ihHcrc := by
  rw [ihHeaderCrc]
  split <;> simp_all

theorem ihDataCrc_eq_zero_iff {m : Mem} {data : BitVec 32} {hdr : ImageHeader} :
    ihDataCrc m data hdr = 0 ↔ crc32 0 (readBytes m data hdr.ihSize.toNat) = hdr.ihDcrc := by
  rw [ihDataCrc]
  split <;> simp_all

section
variable {m m' : Mem} {a : BitVec 32}

/-- A burst in the header behind its checksum is found by the check of the header. -/
theorem Corrupted.headerCrc (h : Corrupted m m' a 8 sizeofImageHeader)
    (hcrc : ihHeaderCrc (loadHeader m a) = 0) : ihHeaderCrc (loadHeader m' a) ≠ 0 := by
  have hburst : Corrupted m m' a 8 (8 + 56) := h
  have hsame : ∀ i < 8, m' (addr a i) = m (addr a i) := fun i hi => hburst.same (by decide) hi
  have hrest : ∀ r, remainder crc32Shift r (readBytes m (addr a 8) 56) ≠
      remainder crc32Shift r (readBytes m' (addr a 8) 56) := hburst.remainder_ne (by decide)
  have hfirst : readBytes m' a 4 = readBytes m a 4 := by
    refine List.map_congr_left fun i hi => hsame i ?_
    have := List.mem_range.mp hi
    omega
  have hfield : (loadHeader m' a).ihHcrc = (loadHeader m a).ihHcrc := by
    refine load32_congr fun k hk => ?_
    rw [addr_addr]
    exact hsame _ (by omega)
  intro hcrc'
  rw [ihHeaderCrc_eq_zero_iff, bytes_loadHeader] at hcrc hcrc'
  rw [hfield, ← hcrc, hfirst] at hcrc'
  refine crc32_ne ?_ ?_ ?_ hcrc'.symm
  · simp [readBytes]
  · simp [be32]
  · rw [remainder_append _ _ (readBytes m (addr a 8) 56),
      remainder_append _ _ (readBytes m' (addr a 8) 56)]
    exact hrest _

/-- A burst in the data is found by the check of the data. -/
theorem Corrupted.dataCrc {data : BitVec 32} {hdr : ImageHeader}
    (h : Corrupted m m' data 0 hdr.ihSize.toNat) (hcrc : ihDataCrc m data hdr = 0) :
    ihDataCrc m' data hdr ≠ 0 := by
  have hlt := hdr.ihSize.isLt
  have hpos : hdr.ihSize.toNat ≠ 0 := by
    obtain ⟨p, n, -, -, hend, -, i, -, hi, -⟩ := h
    omega
  intro hcrc'
  rw [ihDataCrc_eq_zero_iff] at hcrc hcrc'
  refine crc32_ne ?_ ?_ ?_ (hcrc.trans hcrc'.symm)
  · simp [readBytes]
  · simpa [readBytes] using hpos
  · have hburst : Corrupted m m' data 0 (0 + hdr.ihSize.toNat) := by
      rwa [Nat.zero_add]
    have := hburst.remainder_ne (by omega) 0xffffffff
    rwa [addr_zero] at this

/-- **Corruption is detected.** Take an image of the format of `mkimage` on which both
checks pass, and change the bytes of a window of at most four consecutive bytes, at least
one of them to a different value, in the header behind its own checksum or in the data.
The loader then ends with one of the two checksum errors, whatever `lzma_inflate` would do:
it is not called. -/
theorem linuxLoader_detects_corruption (hmagic : load32 m a = ihMagicNumber)
    (hheader : ihHeaderCrc (loadHeader m a) = 0)
    (hdata : ihDataCrc m (addr a sizeofImageHeader) (loadHeader m a) = 0)
    (hcorrupted : Corrupted m m' a 8 sizeofImageHeader ∨
      (∀ k < sizeofImageHeader, m' (addr a k) = m (addr a k)) ∧
        Corrupted m m' (addr a sizeofImageHeader) 0 (loadHeader m a).ihSize.toNat)
    (fuel : ℕ) :
    ∃ e, (e = LoaderError.headerChecksum ∨ e = LoaderError.dataChecksum) ∧
      inflateCall m' fuel a = some (.error e) ∧
      ∀ lzmaInflate uncLen, linuxLoader lzmaInflate m' fuel a uncLen = some (.error e) := by
  have hcalls : ∀ e, inflateCall m' fuel a = some (.error e) → ∀ lzmaInflate uncLen,
      linuxLoader lzmaInflate m' fuel a uncLen = some (.error e) := by
    intro e he lzmaInflate uncLen
    rw [linuxLoader, he]
  have hmagic' : load32 m' a = ihMagicNumber := by
    rw [← hmagic]
    refine load32_congr fun k hk => ?_
    rcases hcorrupted with h | ⟨h, -⟩
    · have hburst : Corrupted m m' a 8 (8 + 56) := h
      exact hburst.same (by decide) (by omega)
    · exact h k (Nat.lt_of_lt_of_le hk (by decide))
  rcases hcorrupted with h | ⟨hsame, h⟩
  · refine ⟨.headerChecksum, .inl rfl, ?_⟩
    have herror : inflateCall m' fuel a = some (.error .headerChecksum) := by
      simp [inflateCall, findHeader_magic hmagic', checkedData, h.headerCrc hheader]
    exact ⟨herror, hcalls _ herror⟩
  · refine ⟨.dataChecksum, .inr rfl, ?_⟩
    have herror : inflateCall m' fuel a = some (.error .dataChecksum) := by
      simp [inflateCall, findHeader_magic hmagic', checkedData, loadHeader_congr hsame, hheader,
        h.dataCrc hdata]
    exact ⟨herror, hcalls _ herror⟩

end

/-- The image of two files at `0x9F020000`. -/
def twoFilesMem : Mem :=
  memOf 0x9F020000 ((mkimage (crc32 0) twoFiles 0).getD [])

/-- With a byte of the time of its header changed, the image of two files is refused. -/
theorem linuxLoader_detects_changed_time :
    ∃ e, inflateCall (Function.update twoFilesMem (addr 0x9F020000 8) 1) 2 0x9F020000 =
      some (.error e) := by
  have hcorrupted : Corrupted twoFilesMem (Function.update twoFilesMem (addr 0x9F020000 8) 1)
      0x9F020000 8 sizeofImageHeader := by
    refine ⟨8, 1, by decide, by decide, by decide, fun x hx => ?_, 8, by decide, by decide, ?_⟩
    · exact Function.update_of_ne (hx 8 (by decide) (by decide)) _ _
    · rw [Function.update_self]
      decide +kernel
  obtain ⟨e, -, he, -⟩ := linuxLoader_detects_corruption (m := twoFilesMem) (by decide +kernel)
    (by decide +kernel) (by decide +kernel) (.inl hcorrupted) 2
  exact ⟨e, he⟩

end RtBoot
