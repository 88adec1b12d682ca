import RtBoot.LinuxLoader

/-!
# What the Loader Takes from an Image

The checksum over the data covers `ih_size` bytes behind the header. For an image with one
file these are the bytes that are unpacked. For an image with several, the loader reads
sizes from the start of the data until it finds a zero, and takes the first size as the
length of the file behind it; neither is compared with `ih_size`.

Containment is a matter of addresses, which wrap around: every byte of every word and of
the file must be a byte of the data. Words and file follow one another without a gap, so if
they do not end inside the data, they cover the first byte behind it.

## Main results

* `skipSizes_eq_some`: where the scan stops, and the words it has read.
* `inflateCall_magic_iff`: what the loader has checked when it calls `lzma_inflate`.
* `loader_input_contained_iff`: which images are unpacked from checked bytes only.
-/

namespace RtBoot

/-- The words the loop over the sizes reads, from word `i` on. -/
def skipSizesReads (m : Mem) (lenPtr : BitVec 32) : (fuel i : ℕ) → List (BitVec 32)
  | 0, _ => []
  | fuel + 1, i =>
      addr lenPtr (4 * i) ::
        if load32 m (addr lenPtr (4 * i)) ≠ 0 then skipSizesReads m lenPtr fuel (i + 1) else []

/-- The words of the size table that `linux_loader` reads. -/
def sizeWordsRead (m : Mem) (fuel : ℕ) (hdr : ImageHeader) (data : BitVec 32) :
    List (BitVec 32) :=
  if hdr.ihType = ihTypeKernel then []
  else if hdr.ihType = ihTypeMulti then data :: skipSizesReads m data fuel 1
  else []

/-- `x` is the address of one of the `size` bytes from `data` on. -/
def InPayload (data : BitVec 32) (size : ℕ) (x : BitVec 32) : Prop :=
  ∃ j < size, x = addr data j

/-- The bytes handed to `lzma_inflate` and the words of the size table are bytes of the
data that the checksum covers. -/
def InputContained (m : Mem) (fuel : ℕ) (a : BitVec 32) (call : InflateCall) : Prop :=
  let hdr := loadHeader m a
  let data := addr a sizeofImageHeader
  (∀ k < call.sLen.toNat, InPayload data hdr.ihSize.toNat (addr call.source k)) ∧
    ∀ word ∈ sizeWordsRead m fuel hdr data, ∀ k < 4,
      InPayload data hdr.ihSize.toNat (addr word k)

/-! ### The scan -/

/-- **Where the scan stops**: at the first zero, having read the words up to it. -/
theorem skipSizes_eq_some {m : Mem} {lenPtr data start : BitVec 32} {fuel i : ℕ}
    (h : skipSizes m lenPtr fuel i data = some start) :
    ∃ n, (∀ j < n, load32 m (addr lenPtr (4 * (i + j))) ≠ 0) ∧
      load32 m (addr lenPtr (4 * (i + n))) = 0 ∧ start = addr data (4 * n) ∧
      ∀ word, word ∈ skipSizesReads m lenPtr fuel i ↔
        ∃ j ≤ n, word = addr lenPtr (4 * (i + j)) := by
  induction fuel generalizing i data with
  | zero => exact absurd h (by simp [skipSizes])
  | succ fuel ih =>
      rw [skipSizes] at h
      simp only [skipSizesReads]
      by_cases hword : load32 m (addr lenPtr (4 * i)) = 0
      · rw [if_neg (not_not.mpr hword)] at h
        obtain rfl := Option.some.inj h
        refine ⟨0, by simp, by simpa using hword, by simp, fun word => ?_⟩
        simp [hword]
      · rw [if_pos hword] at h
        obtain ⟨n, hbefore, hzero, rfl, hreads⟩ := ih h
        refine ⟨n + 1, ?_, ?_, ?_, fun word => ?_⟩
        · intro j hj
          cases j with
          | zero => exact hword
          | succ j =>
              have := hbefore j (by omega)
              rwa [Nat.add_assoc, Nat.add_comm 1 j] at this
        · rwa [Nat.add_assoc, Nat.add_comm 1 n] at hzero
        · rw [addr_addr]
          congr 1
          omega
        · rw [List.mem_cons, if_pos hword, hreads]
          constructor
          · rintro (rfl | ⟨j, hj, rfl⟩)
            · exact ⟨0, by omega, rfl⟩
            · exact ⟨j + 1, by omega, by rw [Nat.add_assoc, Nat.add_comm 1 j]⟩
          · rintro ⟨j, hj, rfl⟩
            cases j with
            | zero => exact .inl rfl
            | succ j => exact .inr ⟨j, by omega, by rw [Nat.add_assoc, Nat.add_comm 1 j]⟩

/-- **What the loader has checked** when it calls `lzma_inflate` on an image of the format
of `mkimage`. -/
theorem inflateCall_magic_iff {m : Mem} {fuel : ℕ} {a : BitVec 32} {hdr : ImageHeader}
    {call : InflateCall} (hmagic : load32 m a = ihMagicNumber) :
    inflateCall m fuel a = some (.ok (hdr, call)) ↔
      hdr = loadHeader m a ∧ ihHeaderCrc hdr = 0 ∧
        ihDataCrc m (addr a sizeofImageHeader) hdr = 0 ∧
        firstFile m fuel hdr (addr a sizeofImageHeader) = some (.ok (call.source, call.sLen)) ∧
        hdr.ihComp = ihCompLzma ∧ call.dest = hdr.ihLoad := by
  simp only [inflateCall_eq_ok_iff, findHeader_magic hmagic, Except.ok.injEq, Prod.mk.injEq]
  constructor
  · rintro ⟨tplType, data, ⟨rfl, rfl⟩, hdata, hfile, hcomp, hdest⟩
    obtain ⟨hheader, hdatacrc, rfl⟩ := checkedData_eq_ok_iff.mp hdata
    exact ⟨rfl, hheader, hdatacrc, hfile, hcomp, hdest⟩
  · rintro ⟨rfl, hheader, hdata, hfile, hcomp, hdest⟩
    exact ⟨false, _, ⟨rfl, rfl⟩, checkedData_eq_ok_iff.mpr ⟨hheader, hdata, rfl⟩, hfile, hcomp,
      hdest⟩

/-! ### Containment -/

/-- The `n` bytes behind the first `skipped`, and those, are bytes of the data exactly when
they end inside it. -/
theorem inPayload_iff {data : BitVec 32} {size skipped n : ℕ} (hsize : size < 2 ^ 32) :
    (∀ j < skipped + n, InPayload data size (addr data j)) ↔ skipped + n ≤ size := by
  constructor
  · intro h
    by_contra hlt
    obtain ⟨j, hj, heq⟩ := h size (by omega)
    have := addr_injOn hsize (by omega) heq
    omega
  · intro hle j hj
    exact ⟨j, by omega, rfl⟩

/-- The bytes of the first `n` words. -/
theorem forall_word_bytes {data : BitVec 32} {n : ℕ} {P : BitVec 32 → Prop} :
    (∀ word, (∃ j < n, word = addr data (4 * j)) → ∀ k < 4, P (addr word k)) ↔
      ∀ j < 4 * n, P (addr data j) := by
  constructor
  · intro h j hj
    have := h _ ⟨j / 4, by omega, rfl⟩ (j % 4) (Nat.mod_lt _ (by decide))
    rwa [addr_addr, Nat.div_add_mod] at this
  · rintro h word ⟨j, hj, rfl⟩ k hk
    rw [addr_addr]
    exact h _ (by omega)

/-- The words the loader reads of a size table that ends with word `n + 1`. -/
theorem mem_sizeWordsRead {m : Mem} {fuel n : ℕ} {hdr : ImageHeader} {data : BitVec 32}
    (htype : hdr.ihType = ihTypeMulti) (hreads : ∀ word, word ∈ skipSizesReads m data fuel 1 ↔
      ∃ j ≤ n, word = addr data (4 * (1 + j))) (word : BitVec 32) :
    word ∈ sizeWordsRead m fuel hdr data ↔ ∃ j < n + 2, word = addr data (4 * j) := by
  have hkernel : ¬ hdr.ihType = ihTypeKernel := by
    rw [htype]
    decide
  rw [sizeWordsRead, if_neg hkernel, if_pos htype, List.mem_cons, hreads]
  constructor
  · rintro (rfl | ⟨j, hj, rfl⟩)
    · exact ⟨0, by omega, by simp⟩
    · exact ⟨1 + j, by omega, rfl⟩
  · rintro ⟨j, hj, rfl⟩
    cases j with
    | zero => exact .inl (by simp)
    | succ j => exact .inr ⟨j, by omega, by rw [Nat.add_comm]⟩

/-- Table and file follow one another, so they are contained when their end is. -/
theorem inputContained_multi_iff {m : Mem} {fuel n : ℕ} {a : BitVec 32} {call : InflateCall}
    (htype : (loadHeader m a).ihType = ihTypeMulti)
    (hreads : ∀ word, word ∈ skipSizesReads m (addr a sizeofImageHeader) fuel 1 ↔
      ∃ j ≤ n, word = addr (addr a sizeofImageHeader) (4 * (1 + j)))
    (hsource : call.source = addr (addr a sizeofImageHeader) (4 * (n + 2))) :
    InputContained m fuel a call ↔
      4 * (n + 2) + call.sLen.toNat ≤ (loadHeader m a).ihSize.toNat := by
  simp only [InputContained, mem_sizeWordsRead htype hreads, forall_word_bytes, hsource]
  rw [← inPayload_iff (loadHeader m a).ihSize.isLt]
  constructor
  · rintro ⟨hfile, htable⟩ j hj
    by_cases hlt : j < 4 * (n + 2)
    · exact htable j hlt
    · have := hfile (j - 4 * (n + 2)) (by omega)
      rwa [addr_addr, Nat.add_sub_cancel' (Nat.le_of_not_lt hlt)] at this
  · intro h
    refine ⟨fun k hk => ?_, fun j hj => h j (by omega)⟩
    rw [addr_addr]
    exact h _ (by omega)

/-- **Which images are unpacked from checked bytes only.** When `linux_loader` calls
`lzma_inflate` on an image of the format of `mkimage`, the bytes it hands over and the
words of the size table it has read are bytes of the data its checksum covers, exactly
when the image has one file, or the size table is closed by a zero and the first file ends
inside the data. -/
theorem loader_input_contained_iff {m : Mem} {fuel : ℕ} {a : BitVec 32} {hdr : ImageHeader}
    {call : InflateCall} (hmagic : load32 m a = ihMagicNumber)
    (hcall : inflateCall m fuel a = some (.ok (hdr, call))) :
    InputContained m fuel a call ↔
      (hdr.ihType = ihTypeMulti →
        ∃ i ≥ 1, load32 m (addr (addr a sizeofImageHeader) (4 * i)) = 0 ∧
          4 * (i + 1) + (load32 m (addr a sizeofImageHeader)).toNat ≤ hdr.ihSize.toNat) := by
  obtain ⟨rfl, -, -, hfile, -, -⟩ := (inflateCall_magic_iff hmagic).mp hcall
  have hsize := (loadHeader m a).ihSize.isLt
  rw [firstFile] at hfile
  split at hfile
  · next hkernel =>
      -- the file is the data, and no table is read
      simp only [Option.some.injEq, Except.ok.injEq, Prod.mk.injEq] at hfile
      obtain ⟨hsource, hlen⟩ := hfile
      refine iff_of_true ?_ fun hmulti => absurd (hkernel.symm.trans hmulti) (by decide)
      refine ⟨fun k hk => ⟨k, by rwa [hlen], by rw [hsource]⟩, ?_⟩
      simp [sizeWordsRead, hkernel]
  · split at hfile
    · next hmulti =>
        obtain ⟨start, hskip, hstart⟩ := Option.map_eq_some_iff.mp hfile
        simp only [Except.ok.injEq, Prod.mk.injEq] at hstart
        obtain ⟨hsource, hlen⟩ := hstart
        obtain ⟨n, hbefore, hzero, hoffset, hreads⟩ := skipSizes_eq_some hskip
        rw [addr_addr, show 8 + 4 * n = 4 * (n + 2) by omega] at hoffset
        rw [inputContained_multi_iff hmulti hreads (hsource.symm.trans hoffset), ← hlen]
        constructor
        · intro hle _
          exact ⟨1 + n, by omega, hzero, by omega⟩
        · intro h
          obtain ⟨i, hi, hzero', hle⟩ := h hmulti
          have hfirst : n + 1 ≤ i := by
            by_contra hlt
            have := hbefore (i - 1) (by omega)
            rw [Nat.add_sub_cancel' hi] at this
            exact this hzero'
          omega
    · exact absurd hfile (by simp)

/-- The tool's header for data of type multi. -/
def multiHeader (data : List (BitVec 8)) : ImageHeader :=
  twoFiles.header (crc32 0) 0 0x80060000 data

/-- Data of type multi behind its header, at `0x9F020000`. -/
def multiImage (data : List (BitVec 8)) : Mem :=
  memOf 0x9F020000 ((multiHeader data).bytes ++ data)

/-- A table of one size, and a file of that size. -/
theorem loader_input_contained_one :
    inflateCall (multiImage (be32 4 ++ be32 0 ++ [1, 2, 3, 4])) 1 0x9F020000 =
        some (.ok (multiHeader (be32 4 ++ be32 0 ++ [1, 2, 3, 4]), ⟨0x9F020048, 4, 0x80060000⟩)) ∧
      InputContained (multiImage (be32 4 ++ be32 0 ++ [1, 2, 3, 4])) 1 0x9F020000
        ⟨0x9F020048, 4, 0x80060000⟩ := by
  have hcall : inflateCall (multiImage (be32 4 ++ be32 0 ++ [1, 2, 3, 4])) 1 0x9F020000 =
      some (.ok (multiHeader (be32 4 ++ be32 0 ++ [1, 2, 3, 4]), ⟨0x9F020048, 4, 0x80060000⟩)) := by
    decide +kernel
  refine ⟨hcall, (loader_input_contained_iff (by decide +kernel) hcall).mpr fun _ => ?_⟩
  exact ⟨1, by decide, by decide +kernel, by decide +kernel⟩

/-- The data is a table of one size, 100, and a file of four bytes: both checksums are
right, and `lzma_inflate` is handed 100 bytes, of which 96 lie behind the data. -/
theorem loader_input_overrun :
    inflateCall (multiImage (be32 100 ++ be32 0 ++ [1, 2, 3, 4])) 1 0x9F020000 =
        some (.ok (multiHeader (be32 100 ++ be32 0 ++ [1, 2, 3, 4]),
          ⟨0x9F020048, 100, 0x80060000⟩)) ∧
      (multiHeader (be32 100 ++ be32 0 ++ [1, 2, 3, 4])).ihSize = 12 ∧
      ¬ InputContained (multiImage (be32 100 ++ be32 0 ++ [1, 2, 3, 4])) 1 0x9F020000
        ⟨0x9F020048, 100, 0x80060000⟩ := by
  refine ⟨by decide +kernel, rfl, fun ⟨hsource, _⟩ => ?_⟩
  have hsize : (loadHeader (multiImage (be32 100 ++ be32 0 ++ [1, 2, 3, 4])) 0x9F020000).ihSize
      = 12 := by
    decide +kernel
  -- the first byte behind the data is the fifth of the file
  obtain ⟨j, hj, heq⟩ := hsource 4 (by decide)
  have hlt : j < 12 := by
    rw [hsize] at hj
    exact hj
  have hbyte : addr 0x9F020048 4 = addr (addr 0x9F020000 sizeofImageHeader) 12 := by decide
  have := addr_injOn (by decide) (hlt.trans (by decide)) (hbyte.symm.trans heq)
  omega

end RtBoot
