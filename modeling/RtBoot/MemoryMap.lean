import RtBoot.Machine

/-!
# The Memory Map of the Boot Loader

`arch_early_init` divides the memory from its end downwards: the image that runs after
relocation, a page for the exception vectors, the heap, the boot parameters of the kernel
and the stack. When the recovery server starts, `sysfs_init` gives half of what is left
below the stack to the RAM file system. Until relocation the loader runs where it was
linked, at `CFG_MONITOR_BASE`.

Addresses are 32-bit words and wrap around. Regions are compared as ranges of natural
numbers.

## Main results

* `archEarlyInit_map`: what every field is, relative to the one above it.
* `boot_memory_map`: **the regions are in order**, disjoint and inside memory, when they
  fit above the first 64 KB; they leave the original image alone when they fit above that.
* `regions_overlap_original`: fitting above the first 64 KB is not enough for the latter.
-/

namespace RtBoot

/-! ### The model -/

/-- `TOTAL_MALLOC_LEN`. -/
def totalMallocLen : BitVec 32 :=
  1024 * 1024

/-- `CFG_BOOTPARAMS_LEN`. -/
def cfgBootparamsLen : BitVec 32 :=
  512 * 1024

/-- `CFG_MONITOR_BASE`: the address the loader is linked to. -/
def cfgMonitorBase : BitVec 32 :=
  0x80010000

/-- `CFG_SDRAM_BASE`. -/
def cfgSdramBase : BitVec 32 :=
  0x80000000

/-- The part of `rtboot_data` that describes the memory. -/
structure RtbootData where
  systemMemstart : BitVec 32
  systemMemsize : BitVec 32
  systemMemend : BitVec 32
  rtbootLength : BitVec 32
  relocationBase : BitVec 32
  relocationEbase : BitVec 32
  mallocEndBase : BitVec 32
  mallocStartBase : BitVec 32
  bootParamPointer : BitVec 32
  startStackBase : BitVec 32
  endStackBase : BitVec 32
  deriving DecidableEq, Repr

/-- `arch_early_init`, for an image that ends at `rtbootEnd`. The variable
`start_stack_base` is lowered from region to region. -/
def archEarlyInit (rtbootEnd systemMemsize : BitVec 32) : RtbootData :=
  let systemMemend := cfgSdramBase + systemMemsize
  let rtbootLength := rtbootEnd - cfgMonitorBase
  let relocationBase := alignDown systemMemend 4096
  let relocationBase := alignDown (relocationBase - rtbootLength) (16 * 1024)
  let startStackBase := alignDown (relocationBase - 0x1000) 4096
  let relocationEbase := startStackBase
  let mallocEndBase := startStackBase - 4
  let startStackBase := alignDown (startStackBase - totalMallocLen) 4096
  let mallocStartBase := startStackBase
  let startStackBase := startStackBase - cfgBootparamsLen
  let bootParamPointer := startStackBase
  let startStackBase := alignDown (startStackBase - 0x10) 0x10
  let startStackBase := startStackBase - 8
  let endStackBase := alignDown (startStackBase - 0x4000) 4096
  { systemMemstart := cfgSdramBase
    systemMemsize, systemMemend, rtbootLength, relocationBase, relocationEbase, mallocEndBase,
    mallocStartBase, bootParamPointer, startStackBase, endStackBase }

/-- `ramfs_size` of `sysfs_init`. -/
def RtbootData.ramfsSize (d : RtbootData) : BitVec 32 :=
  (d.endStackBase - d.systemMemstart) / 2

/-- `ramfs_start` of `sysfs_init`. -/
def RtbootData.ramfsStart (d : RtbootData) : BitVec 32 :=
  d.endStackBase - d.ramfsSize

/-! ### Regions -/

/-- The addresses from `base` up to `limit`. -/
structure Region where
  base : ℕ
  limit : ℕ
  deriving DecidableEq, Repr

/-- Two regions have no address in common. -/
def Region.Separated (r s : Region) : Prop :=
  r.limit ≤ s.base ∨ s.limit ≤ r.base
  deriving Decidable

/-- The `length` addresses from `base` on. -/
def region (base length : BitVec 32) : Region :=
  ⟨base.toNat, base.toNat + length.toNat⟩

/-- The RAM file system. -/
def RtbootData.ramfs (d : RtbootData) : Region :=
  region d.ramfsStart d.ramfsSize

/-- The stack, with the eight bytes `arch_early_init` clears at its top. -/
def RtbootData.stack (d : RtbootData) : Region :=
  ⟨d.endStackBase.toNat, d.startStackBase.toNat + 8⟩

/-- The boot parameters. -/
def RtbootData.bootParams (d : RtbootData) : Region :=
  region d.bootParamPointer cfgBootparamsLen

/-- The heap. -/
def RtbootData.heap (d : RtbootData) : Region :=
  ⟨d.mallocStartBase.toNat, d.mallocEndBase.toNat⟩

/-- The page of the exception vectors. -/
def RtbootData.vectors (d : RtbootData) : Region :=
  region d.relocationEbase 0x1000

/-- The relocated image. -/
def RtbootData.relocated (d : RtbootData) : Region :=
  region d.relocationBase d.rtbootLength

/-- The image before relocation. -/
def RtbootData.original (d : RtbootData) : Region :=
  region cfgMonitorBase d.rtbootLength

/-- What is in use while the original image is. -/
def RtbootData.earlyRegions (d : RtbootData) : List Region :=
  [d.stack, d.bootParams, d.heap, d.vectors, d.relocated]

/-- The regions are in ascending order, disjoint and inside memory, the vectors are aligned,
and the stack has 16 KB. -/
structure MapSound (d : RtbootData) : Prop where
  proper : ∀ r ∈ d.ramfs :: d.earlyRegions, r.base ≤ r.limit
  ascending : (d.ramfs :: d.earlyRegions).Pairwise fun r s => r.limit ≤ s.base
  inside : ∀ r ∈ d.ramfs :: d.earlyRegions,
    d.systemMemstart.toNat ≤ r.base ∧ r.limit ≤ d.systemMemend.toNat
  aligned : d.relocationEbase.toNat % 4096 = 0
  stack : d.endStackBase.toNat + 16 * 1024 ≤ d.startStackBase.toNat

/-! ### The fields -/

/-- What rounding down may cost: the end of memory and the image, and the end of the
stack. -/
def roundingSlack : ℕ :=
  (4096 - 1) + (16 * 1024 - 1) + 4096

/-- What is reserved beside the image: the vectors, heap, parameters and stack, and what
rounding may cost. -/
def reservedLen : ℕ :=
  0x1000 + totalMallocLen.toNat + cfgBootparamsLen.toNat + 0x4000 + roundingSlack

/-- Every field, relative to the one above it. -/
structure EarlyMap (d : RtbootData) : Prop where
  memstart : d.systemMemstart.toNat = 0x80000000
  memend : d.systemMemend.toNat = 0x80000000 + d.systemMemsize.toNat
  image : d.relocationBase.toNat + d.rtbootLength.toNat ≤ d.systemMemend.toNat
  image_high : d.systemMemend.toNat ≤
    d.relocationBase.toNat + d.rtbootLength.toNat + (4096 - 1) + (16 * 1024 - 1)
  image_aligned : d.relocationBase.toNat % (16 * 1024) = 0
  vectors : d.relocationEbase.toNat + 0x1000 = d.relocationBase.toNat
  heap_end : d.mallocEndBase.toNat + 4 = d.relocationEbase.toNat
  heap_start : d.mallocStartBase.toNat + 1024 * 1024 = d.relocationEbase.toNat
  params : d.bootParamPointer.toNat + 512 * 1024 = d.mallocStartBase.toNat
  stack_start : d.startStackBase.toNat + 24 = d.bootParamPointer.toNat
  stack_end : d.endStackBase.toNat + 0x5000 = d.bootParamPointer.toNat

/-- Reserving `n` bytes below `x` and rounding down. -/
theorem reserve_bounds {x n size : BitVec 32} {k : ℕ} (hsize : size.toNat = 2 ^ k)
    (h : n.toNat ≤ x.toNat) :
    (alignDown (x - n) size).toNat % 2 ^ k = 0 ∧
      (alignDown (x - n) size).toNat + n.toNat ≤ x.toNat ∧
      x.toNat < (alignDown (x - n) size).toNat + n.toNat + 2 ^ k := by
  have hmod := Nat.mod_lt (x.toNat - n.toNat) (Nat.two_pow_pos k)
  have hle := Nat.mod_le (x.toNat - n.toNat) (2 ^ k)
  rw [toNat_alignDown _ hsize, BitVec.toNat_sub_of_le h]
  exact ⟨Nat.mod_eq_zero_of_dvd (Nat.dvd_sub_mod _), by omega, by omega⟩

/-- Reserving a multiple of the alignment below an aligned address loses nothing. -/
theorem toNat_reserve {x n size : BitVec 32} {k : ℕ} (hsize : size.toNat = 2 ^ k)
    (h : n.toNat ≤ x.toNat) (hx : 2 ^ k ∣ x.toNat) (hn : 2 ^ k ∣ n.toNat) :
    (alignDown (x - n) size).toNat + n.toNat = x.toNat := by
  have hdvd : (x.toNat - n.toNat) % 2 ^ k = 0 := Nat.mod_eq_zero_of_dvd (Nat.dvd_sub hx hn)
  rw [toNat_alignDown _ hsize, BitVec.toNat_sub_of_le h, hdvd]
  omega

theorem toNat_lower {x n : BitVec 32} (h : n.toNat ≤ x.toNat) :
    (x - n).toNat + n.toNat = x.toNat := by
  rw [BitVec.toNat_sub_of_le h]
  omega

/-- What every field is, when the regions fit above the first 64 KB. -/
theorem archEarlyInit_map {rtbootEnd memsize : BitVec 32} (hmem : memsize.toNat ≤ 512 * 2 ^ 20)
    (hfit : 0x10000 + (rtbootEnd - cfgMonitorBase).toNat + reservedLen ≤ memsize.toNat) :
    EarlyMap (archEarlyInit rtbootEnd memsize) := by
  unfold archEarlyInit
  extract_lets memend length top base ebase ebase' mallocEnd mallocStart mallocStart' params
    params' stack₀ stack stackEnd
  replace hfit : 0x10000 + length.toNat + 1617918 ≤ memsize.toNat := hfit
  have hmemend : memend.toNat = 0x80000000 + memsize.toNat := by
    rw [BitVec.toNat_add]
    exact Nat.mod_eq_of_lt (show 0x80000000 + memsize.toNat < 2 ^ 32 by omega)
  have htop : top.toNat = memend.toNat - memend.toNat % 2 ^ 12 := toNat_alignDown _ rfl
  obtain ⟨haligned, hbase, hbase'⟩ : base.toNat % 2 ^ 14 = 0 ∧
      base.toNat + length.toNat ≤ top.toNat ∧ top.toNat < base.toNat + length.toNat + 2 ^ 14 :=
    reserve_bounds rfl (by omega)
  have hlow : 1597440 ≤ base.toNat := by omega
  have hebase : ebase.toNat + 0x1000 = base.toNat :=
    toNat_reserve (n := 0x1000) (k := 12) rfl (show 0x1000 ≤ base.toNat by omega) (by omega)
      (by decide)
  have hmallocEnd : mallocEnd.toNat + 4 = ebase.toNat :=
    toNat_lower (n := 4) (show 4 ≤ ebase.toNat by omega)
  have hmallocStart : mallocStart.toNat + 0x100000 = ebase.toNat :=
    toNat_reserve (n := totalMallocLen) (k := 12) rfl (show 0x100000 ≤ ebase.toNat by omega)
      (by omega) (by decide)
  have hparams : params.toNat + 0x80000 = mallocStart.toNat :=
    toNat_lower (n := cfgBootparamsLen) (show 0x80000 ≤ mallocStart.toNat by omega)
  have hstack₀ : stack₀.toNat + 0x10 = params.toNat :=
    toNat_reserve (n := 0x10) (k := 4) rfl (show 0x10 ≤ params.toNat by omega) (by omega)
      (by decide)
  have hstack : stack.toNat + 8 = stack₀.toNat :=
    toNat_lower (n := 8) (show 8 ≤ stack₀.toNat by omega)
  obtain ⟨hendAligned, hend, hend'⟩ : stackEnd.toNat % 2 ^ 12 = 0 ∧
      stackEnd.toNat + 0x4000 ≤ stack.toNat ∧ stack.toNat < stackEnd.toNat + 0x4000 + 2 ^ 12 :=
    reserve_bounds (n := 0x4000) rfl (show 0x4000 ≤ stack.toNat by omega)
  exact
    { memstart := rfl
      memend := hmemend
      image := show base.toNat + length.toNat ≤ memend.toNat by omega
      image_high := show memend.toNat ≤ base.toNat + length.toNat + 4095 + 16383 by omega
      image_aligned := haligned
      vectors := hebase
      heap_end := hmallocEnd
      heap_start := hmallocStart
      params := hparams
      stack_start := show stack.toNat + 24 = params.toNat by omega
      stack_end := show stackEnd.toNat + 0x5000 = params.toNat by omega }

/-! ### The map -/

section
variable {d : RtbootData}

/-- The RAM file system ends where the stack ends, and takes half of what is below. -/
theorem EarlyMap.ramfs_eq (h : EarlyMap d) (hlow : 0x80000000 ≤ d.endStackBase.toNat) :
    d.ramfs = ⟨d.endStackBase.toNat - (d.endStackBase.toNat - 0x80000000) / 2,
      d.endStackBase.toNat⟩ := by
  have hstart := h.memstart
  have hsize : d.ramfsSize.toNat = (d.endStackBase.toNat - 0x80000000) / 2 := by
    have hsub := BitVec.toNat_sub_of_le (show d.systemMemstart.toNat ≤ _ from hstart ▸ hlow)
    rw [RtbootData.ramfsSize, BitVec.toNat_udiv, hsub, hstart]
    rfl
  have hlower := toNat_lower (show d.ramfsSize.toNat ≤ d.endStackBase.toNat by omega)
  simp only [RtbootData.ramfs, region, RtbootData.ramfsStart, Region.mk.injEq]
  omega

/-- The regions above the end of the stack lie at fixed distances from it. -/
theorem EarlyMap.earlyRegions_eq (h : EarlyMap d) {e : ℕ} (he : d.endStackBase.toNat = e) :
    d.earlyRegions =
      [⟨e, e + 0x4FF0⟩, ⟨e + 0x5000, e + 0x85000⟩, ⟨e + 0x85000, e + 0x184FFC⟩,
        ⟨e + 0x185000, e + 0x186000⟩, ⟨e + 0x186000, e + 0x186000 + d.rtbootLength.toNat⟩] := by
  obtain ⟨-, -, -, -, -, hvectors, hheapEnd, hheap, hparams, hstack, hend⟩ := h
  have hlen : cfgBootparamsLen.toNat = 0x80000 := rfl
  have hpage : (0x1000 : BitVec 32).toNat = 0x1000 := rfl
  simp only [RtbootData.earlyRegions, RtbootData.stack, RtbootData.bootParams, RtbootData.heap,
    RtbootData.vectors, RtbootData.relocated, region, hlen, hpage, List.cons.injEq,
    Region.mk.injEq, and_true]
  omega

/-- The end of memory, from the end of the stack. -/
theorem EarlyMap.memend_bounds (h : EarlyMap d) :
    d.endStackBase.toNat + 0x186000 + d.rtbootLength.toNat ≤ d.systemMemend.toNat ∧
      0x80000000 + d.systemMemsize.toNat ≤
        d.endStackBase.toNat + d.rtbootLength.toNat + reservedLen := by
  obtain ⟨-, hmemend, himage, hhigh, -, hvectors, -, hheap, hparams, -, hend⟩ := h
  have hreserved : reservedLen = 1617918 := rfl
  omega

/-- The map of the early stage is sound if the image fits. -/
theorem EarlyMap.sound (h : EarlyMap d)
    (hfit : 0x10000 + d.rtbootLength.toNat + reservedLen ≤ d.systemMemsize.toNat) :
    MapSound d := by
  obtain ⟨hinside, hbounds⟩ := h.memend_bounds
  have hlow : 0x80000000 ≤ d.endStackBase.toNat := by omega
  constructor
  case aligned =>
    have := h.image_aligned
    have := h.vectors
    omega
  case stack =>
    have := h.stack_start
    have := h.stack_end
    omega
  all_goals
    rw [h.ramfs_eq hlow, h.earlyRegions_eq rfl]
  case proper =>
    simp only [List.forall_mem_cons, List.not_mem_nil, false_imp_iff, implies_true, and_true]
    omega
  case ascending =>
    simp only [List.pairwise_cons, List.forall_mem_cons, List.not_mem_nil, false_imp_iff,
      implies_true, and_true, List.Pairwise.nil]
    omega
  case inside =>
    rw [h.memstart]
    simp only [List.forall_mem_cons, List.not_mem_nil, false_imp_iff, implies_true, and_true]
    omega

/-- What is above the end of the stack is above an image that ends below it. -/
theorem EarlyMap.separated_original (h : EarlyMap d)
    (habove : 0x10000 + 2 * d.rtbootLength.toNat + reservedLen ≤ d.systemMemsize.toNat) :
    ∀ r ∈ d.earlyRegions, d.original.Separated r := by
  obtain ⟨-, hbounds⟩ := h.memend_bounds
  have hbelow : d.original.limit ≤ d.endStackBase.toNat := by
    have hbase : cfgMonitorBase.toNat = 0x80010000 := rfl
    simp only [RtbootData.original, region, hbase]
    omega
  have hregions : ∀ r ∈ d.earlyRegions, d.endStackBase.toNat ≤ r.base := by
    rw [h.earlyRegions_eq rfl]
    simp only [List.forall_mem_cons, List.not_mem_nil, false_imp_iff, implies_true, and_true]
    omega
  intro r hr
  exact .inl (hbelow.trans (hregions r hr))

end

/-- **The memory map**: for every memory of at most 512 MB and every image such that both the
regions and the first 64 KB fit into memory, the regions are in order, disjoint and inside
memory. If the original image fits below them as well, none but the RAM file system
touches it. -/
theorem boot_memory_map (rtbootEnd memsize : BitVec 32) (hmem : memsize.toNat ≤ 512 * 2 ^ 20)
    (hfit : 0x10000 + (rtbootEnd - cfgMonitorBase).toNat + reservedLen ≤ memsize.toNat) :
    MapSound (archEarlyInit rtbootEnd memsize) ∧
      (0x10000 + 2 * (rtbootEnd - cfgMonitorBase).toNat + reservedLen ≤ memsize.toNat →
        ∀ r ∈ (archEarlyInit rtbootEnd memsize).earlyRegions,
          (archEarlyInit rtbootEnd memsize).original.Separated r) := by
  have hmap := archEarlyInit_map hmem hfit
  exact ⟨hmap.sound hfit, hmap.separated_original⟩

/-- A memory of 32 MB, and an image of 512 KB. -/
theorem boot_memory_map_32 :
    MapSound (archEarlyInit 0x80090000 0x2000000) ∧
      ∀ r ∈ (archEarlyInit 0x80090000 0x2000000).earlyRegions,
        (archEarlyInit 0x80090000 0x2000000).original.Separated r :=
  have h := boot_memory_map 0x80090000 0x2000000 (by decide) (by decide)
  ⟨h.1, h.2 (by decide)⟩

/-- With 4 MB of memory and an image of 2 MB the regions fit above the first 64 KB, with more
than 400 KB to spare; but the stack, and all above it, lies in the original image. -/
theorem regions_overlap_original :
    0x10000 + (0x80210000 - cfgMonitorBase).toNat + reservedLen + 400 * 1024 ≤ 0x400000 ∧
      ∀ r ∈ (archEarlyInit 0x80210000 0x400000).earlyRegions,
        ¬ (archEarlyInit 0x80210000 0x400000).original.Separated r := by
  decide +kernel

end RtBoot
