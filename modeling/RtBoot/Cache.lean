import Mathlib.Data.BitVec
import Mathlib.Data.List.Basic
import Mathlib.Tactic.Common
import RtBoot.Machine

/-!
# Cache Maintenance

The four functions that write lines of the data cache back and drop lines of either cache
(`arch/mips/cache/cache.c`). Each works on the lines of a range of addresses with one
`cache` instruction per line and cache. A function is modelled as the list of `cache`
instructions it executes, in order; its loop is given fuel, and runs out of it only when
it does not end.

All four round the start of the range down to a line and the *size* up to whole lines,
each for itself. The lines they work on are therefore as many as the size needs when the
range begins at a line, counted from the line the range begins in: a range that begins
further inside its line than the size leaves free in its last line misses a line. The end
of the lines is kept in a 32-bit word, which is `0` when the last line is the last one of
the address space, and then nothing is done at all.

## Main results

* `cacheRange_spec`: the loop ends, and the lines it works on.
* `cacheRange_covers_iff`: exactly when these are the lines of the range.
* `archCache_covers_iff`: exactly when each of the four functions covers its range.
-/

namespace RtBoot

/-- The `cache` instructions in use, by their operation code. -/
inductive CacheOp
  /-- `0x15`: write the data line back and drop it -/
  | hitWritebackInvD
  /-- `0x11`: drop the data line -/
  | hitInvD
  /-- `0x10`: drop the instruction line -/
  | hitInvI
  deriving DecidableEq, Repr

/-- The fields of `rtboot_data` about the caches. A cache is present when its size is not
`0`. -/
structure CacheData where
  icacheSize : BitVec 32
  icacheLineSize : BitVec 32
  dcacheSize : BitVec 32
  dcacheLineSize : BitVec 32
  deriving DecidableEq, Repr

/-- The size and the line size of a cache that `arch_cache_init` reads out of the three
fields of a cache in `config1`: a line field of `0` says that there is no cache. -/
def cacheGeometry (setsPerWayRaw lineSizeRaw associativityRaw : BitVec 32) :
    BitVec 32 × BitVec 32 :=
  if lineSizeRaw ≠ 0 then
    let lineSize := (2 : BitVec 32) <<< (lineSizeRaw.toNat % 32)
    let associativity := associativityRaw + 1
    if setsPerWayRaw ≠ 7 then
      ((64 : BitVec 32) <<< (setsPerWayRaw.toNat % 8) * lineSize * associativity, lineSize)
    else (32 * lineSize * associativity, lineSize)
  else (0, 0)

/-- `arch_cache_init`, with `config1` the value of the register. -/
def archCacheInit (config1 : BitVec 32) : CacheData :=
  let icache := cacheGeometry ((config1 >>> 22) &&& 7) ((config1 >>> 19) &&& 7)
    ((config1 >>> 16) &&& 7)
  let dcache := cacheGeometry ((config1 >>> 13) &&& 7) ((config1 >>> 10) &&& 7)
    ((config1 >>> 7) &&& 7)
  ⟨icache.1, icache.2, dcache.1, dcache.2⟩

/-- The line size of every cache that is present is a power of two. -/
structure CacheData.PowerLines (d : CacheData) : Prop where
  icache : d.icacheSize ≠ 0 → ∃ k, d.icacheLineSize.toNat = 2 ^ k
  dcache : d.dcacheSize ≠ 0 → ∃ k, d.dcacheLineSize.toNat = 2 ^ k

/-- A line size that is read out of three bits is a power of two. -/
theorem cacheGeometry_line {sets line assoc : BitVec 32} (hline : line.toNat ≤ 7)
    (hpresent : (cacheGeometry sets line assoc).1 ≠ 0) :
    (cacheGeometry sets line assoc).2.toNat = 2 ^ (line.toNat + 1) := by
  have hne : line ≠ 0 := by
    rintro rfl
    exact hpresent rfl
  have hsnd : (cacheGeometry sets line assoc).2 = (2 : BitVec 32) <<< (line.toNat % 32) := by
    rw [cacheGeometry, if_pos hne]
    dsimp only
    split <;> rfl
  rw [hsnd, BitVec.toNat_shiftLeft, Nat.shiftLeft_eq, Nat.mod_eq_of_lt (by omega : line.toNat < 32)]
  have hlt : 2 ^ (line.toNat + 1) < 2 ^ 32 := Nat.pow_lt_pow_right (by omega) (by omega)
  have hpow : (2 : BitVec 32).toNat * 2 ^ line.toNat = 2 ^ (line.toNat + 1) :=
    (Nat.pow_succ').symm
  rw [hpow, Nat.mod_eq_of_lt hlt]

/-- What `arch_cache_init` finds out has power-of-two lines. -/
theorem archCacheInit_powerLines (config1 : BitVec 32) : (archCacheInit config1).PowerLines := by
  have hmask : ∀ x : BitVec 32, (x &&& 7).toNat ≤ 7 := by
    intro x
    rw [BitVec.toNat_and]
    exact Nat.and_le_right
  exact ⟨fun h => ⟨_, cacheGeometry_line (hmask _) h⟩, fun h => ⟨_, cacheGeometry_line (hmask _) h⟩⟩

/-- The loops of the four functions: `ops` on every line from `temp_addr` to `end_addr`. -/
def cacheLoop (ops : List CacheOp) (lineSize endAddr : BitVec 32) :
    ℕ → BitVec 32 → Option (List (CacheOp × BitVec 32))
  | 0, _ => none
  | fuel + 1, tempAddr =>
      if tempAddr < endAddr then
        (cacheLoop ops lineSize endAddr fuel (tempAddr + lineSize)).map
          fun rest => ops.map (·, tempAddr) ++ rest
      else some []

/-- The body the four functions share: round the start down and the size up, and loop. -/
def cacheRange (ops : List CacheOp) (lineSize startAddr size : BitVec 32) (fuel : ℕ) :
    Option (List (CacheOp × BitVec 32)) :=
  let tempAddr := alignDown startAddr lineSize
  let size := alignDown (size + lineSize - 1) lineSize
  let endAddr := tempAddr + size
  cacheLoop ops lineSize endAddr fuel tempAddr

/-- `arch_dcache_flush`. -/
def archDcacheFlush (d : CacheData) (startAddr size : BitVec 32) (fuel : ℕ) :
    Option (List (CacheOp × BitVec 32)) :=
  if d.dcacheSize ≠ 0 then cacheRange [.hitWritebackInvD] d.dcacheLineSize startAddr size fuel
  else some []

/-- `arch_dcache_invalidate`. -/
def archDcacheInvalidate (d : CacheData) (startAddr size : BitVec 32) (fuel : ℕ) :
    Option (List (CacheOp × BitVec 32)) :=
  if d.dcacheSize ≠ 0 then cacheRange [.hitInvD] d.dcacheLineSize startAddr size fuel
  else some []

/-- `arch_icache_flush`. -/
def archIcacheFlush (d : CacheData) (startAddr size : BitVec 32) (fuel : ℕ) :
    Option (List (CacheOp × BitVec 32)) :=
  if d.icacheSize ≠ 0 then cacheRange [.hitInvI] d.icacheLineSize startAddr size fuel
  else some []

/-- `arch_cache_flush`: one loop for both caches when their lines have one size, two loops
otherwise, and nothing at all unless both caches are present. -/
def archCacheFlush (d : CacheData) (startAddr size : BitVec 32) (fuel : ℕ) :
    Option (List (CacheOp × BitVec 32)) :=
  if d.icacheSize ≠ 0 ∧ d.dcacheSize ≠ 0 then
    if d.icacheLineSize = d.dcacheLineSize then
      cacheRange [.hitWritebackInvD, .hitInvI] d.icacheLineSize startAddr size fuel
    else do
      let flushed ← archDcacheFlush d startAddr size fuel
      let dropped ← archIcacheFlush d startAddr size fuel
      pure (flushed ++ dropped)
  else some []

/-! ### The property -/

/-- The run ends, with this result, when it is given enough fuel. -/
def EndsWith {α : Type*} (run : ℕ → Option α) (result : α) : Prop :=
  ∃ enough, ∀ fuel, enough ≤ fuel → run fuel = some result

/-- Every line that holds a byte of `[start, start + size)` is worked on by `op`. -/
def CoversLines (op : CacheOp) (lineSize startAddr size : BitVec 32)
    (trace : List (CacheOp × BitVec 32)) : Prop :=
  ∀ x, startAddr.toNat ≤ x → x < startAddr.toNat + size.toNat →
    ∃ a, (op, a) ∈ trace ∧ a.toNat / lineSize.toNat = x / lineSize.toNat

/-- The function ends, and works with `op` on the range's lines of a cache when the cache is
present. -/
def CoversRange (op : CacheOp) (cacheSize lineSize startAddr size : BitVec 32)
    (run : ℕ → Option (List (CacheOp × BitVec 32))) : Prop :=
  ∃ trace, EndsWith run trace ∧
    (cacheSize ≠ 0 → CoversLines op lineSize startAddr size trace)

/-- The start lies in its line no further than the size leaves free in its last line, and
no line of the range is the last one of the address space. -/
def LinesReach (lineSize startAddr size : BitVec 32) : Prop :=
  startAddr.toNat % lineSize.toNat ≤
      (lineSize.toNat - size.toNat % lineSize.toNat) % lineSize.toNat ∧
    startAddr.toNat + size.toNat + lineSize.toNat ≤ 2 ^ 32
  deriving Decidable

/-- A run ends with one result only. -/
theorem EndsWith.unique {α : Type*} {run : ℕ → Option α} {a b : α} (ha : EndsWith run a)
    (hb : EndsWith run b) : a = b := by
  obtain ⟨m, hm⟩ := ha
  obtain ⟨n, hn⟩ := hb
  have h := (hm (max m n) (le_max_left m n)).symm.trans (hn (max m n) (le_max_right m n))
  exact Option.some.inj h

/-! ### The loop -/

variable {lineSize size startAddr : BitVec 32} {k : ℕ} {op : CacheOp}
  {trace : List (CacheOp × BitVec 32)}

/-- A loop whose end is `count` lines behind its start ends, and works on these lines. -/
theorem cacheLoop_spec (ops : List CacheOp) {endAddr : BitVec 32} (count : ℕ)
    (tempAddr : BitVec 32) (hline : 0 < lineSize.toNat)
    (hend : endAddr.toNat = tempAddr.toNat + count * lineSize.toNat) :
    ∃ trace, (∀ fuel, count < fuel →
        cacheLoop ops lineSize endAddr fuel tempAddr = some trace) ∧
      ∀ op a, (op, a) ∈ trace ↔
        op ∈ ops ∧ ∃ i < count, a.toNat = tempAddr.toNat + i * lineSize.toNat := by
  induction count generalizing tempAddr with
  | zero =>
      have hstop : ¬ tempAddr < endAddr := by
        rw [BitVec.lt_def]
        omega
      refine ⟨[], ?_, by simp⟩
      rintro (_ | fuel) hfuel
      · omega
      · rw [cacheLoop, if_neg hstop]
  | succ count ih =>
      have hgo : tempAddr < endAddr := by
        rw [BitVec.lt_def, hend, Nat.add_mul, Nat.one_mul]
        omega
      have hnext : (tempAddr + lineSize).toNat = tempAddr.toNat + lineSize.toNat := by
        have hlt := endAddr.isLt
        rw [hend, Nat.add_mul, Nat.one_mul] at hlt
        rw [BitVec.toNat_add, Nat.mod_eq_of_lt (by omega)]
      obtain ⟨rest, hrest, hmem⟩ := ih (tempAddr + lineSize)
        (by rw [hend, hnext, Nat.add_mul, Nat.one_mul]; omega)
      refine ⟨ops.map (·, tempAddr) ++ rest, ?_, ?_⟩
      · rintro (_ | fuel) hfuel
        · omega
        · rw [cacheLoop, if_pos hgo, hrest fuel (by omega)]
          rfl
      · intro op a
        rw [List.mem_append, hmem, List.mem_map, hnext]
        constructor
        · rintro (⟨o, ho, h⟩ | ⟨ho, i, hi, ha⟩)
          · obtain ⟨rfl, rfl⟩ := Prod.mk.inj h
            exact ⟨ho, 0, by omega, by simp⟩
          · refine ⟨ho, i + 1, by omega, ?_⟩
            rw [ha, Nat.add_mul, Nat.one_mul]
            omega
        · rintro ⟨ho, i, hi, ha⟩
          cases i with
          | zero =>
              refine .inl ⟨op, ho, ?_⟩
              rw [Nat.zero_mul, Nat.add_zero] at ha
              rw [BitVec.eq_of_toNat_eq ha]
          | succ i =>
              refine .inr ⟨ho, i, by omega, ?_⟩
              rw [ha, Nat.add_mul, Nat.one_mul]
              omega

/-- Rounding up to whole lines is adding what is free in the last line. -/
theorem lines_mul_eq (n : ℕ) {line : ℕ} (hline : 0 < line) :
    (n + line - 1) / line * line = n + (line - n % line) % line := by
  have hmod : n % line < line := Nat.mod_lt n hline
  have hdiv := Nat.div_add_mod' n line
  by_cases hz : n % line = 0
  · have hcount : (n + line - 1) / line = n / line := by
      rw [Nat.div_eq_iff hline]
      constructor
      · omega
      · omega
    rw [hcount, hz, Nat.sub_zero, Nat.mod_self]
    omega
  · have hcount : (n + line - 1) / line = n / line + 1 := by
      rw [Nat.div_eq_iff hline, Nat.add_mul, Nat.one_mul]
      constructor
      · omega
      · omega
    rw [hcount, Nat.mod_eq_of_lt (by omega), Nat.add_mul, Nat.one_mul]
    omega

/-- The number of lines the loop works on: those of the size, counted from the line of the
start, unless they end with the address space. -/
def lineCount (line start size : ℕ) : ℕ :=
  if start - start % line + (size + line - 1) / line * line < 2 ^ 32 then
    (size + line - 1) / line
  else 0

/-- The rounded size, and `0` when rounding it up leaves the word. -/
theorem toNat_alignDown_size (hline : lineSize.toNat = 2 ^ k) (size : BitVec 32) :
    (alignDown (size + lineSize - 1) lineSize).toNat =
      if size.toNat + lineSize.toNat - 1 < 2 ^ 32 then
        (size.toNat + lineSize.toNat - 1) / lineSize.toNat * lineSize.toNat
      else 0 := by
  have hpos : 0 < lineSize.toNat := hline ▸ Nat.two_pow_pos k
  have hsum : (size + lineSize - 1).toNat = (size.toNat + lineSize.toNat - 1) % 2 ^ 32 := by
    bv_omega
  rw [toNat_alignDown _ hline, ← hline, hsum]
  have hlt := lineSize.isLt
  have hlt' := size.isLt
  split
  · next h =>
      rw [Nat.mod_eq_of_lt h]
      have := Nat.div_add_mod' (size.toNat + lineSize.toNat - 1) lineSize.toNat
      omega
  · next h =>
      have hmod : (size.toNat + lineSize.toNat - 1) % 2 ^ 32 =
          size.toNat + lineSize.toNat - 1 - 2 ^ 32 := by
        omega
      rw [hmod, Nat.mod_eq_of_lt (by omega), Nat.sub_self]

/-- The address space is made of whole lines. -/
theorem exists_lines_eq (hline : lineSize.toNat = 2 ^ k) :
    ∃ lines, lines * lineSize.toNat = 2 ^ 32 := by
  have hk : k < 32 := (Nat.pow_lt_pow_iff_right (by omega)).mp (hline ▸ lineSize.isLt)
  refine ⟨2 ^ (32 - k), ?_⟩
  rw [hline, ← Nat.pow_add]
  congr 1
  omega

/-- The end of the lines is the address the loop runs to, unless they end with the address
space: then the loop does not run. -/
theorem cacheRange_end
    (hline : lineSize.toNat = 2 ^ k) (hwrap : startAddr.toNat + size.toNat ≤ 2 ^ 32) :
    let tempAddr := alignDown startAddr lineSize
    let endAddr := tempAddr + alignDown (size + lineSize - 1) lineSize
    let count := lineCount lineSize.toNat startAddr.toNat size.toNat
    endAddr.toNat = tempAddr.toNat + count * lineSize.toNat ∨ (endAddr ≤ tempAddr ∧ count = 0) := by
  intro tempAddr endAddr count
  have hpos : 0 < lineSize.toNat := hline ▸ Nat.two_pow_pos k
  obtain ⟨lines, hlines⟩ := exists_lines_eq hline
  have htemp : tempAddr.toNat = startAddr.toNat - startAddr.toNat % lineSize.toNat := by
    rw [toNat_alignDown _ hline, hline]
  have hdiv := Nat.div_add_mod' startAddr.toNat lineSize.toNat
  have hsize := toNat_alignDown_size hline size
  have hround := lines_mul_eq size.toNat hpos
  have hpad : (lineSize.toNat - size.toNat % lineSize.toNat) % lineSize.toNat < lineSize.toNat :=
    Nat.mod_lt _ hpos
  have hend : endAddr.toNat =
      (tempAddr.toNat + (alignDown (size + lineSize - 1) lineSize).toNat) % 2 ^ 32 :=
    BitVec.toNat_add _ _
  by_cases hfits : size.toNat + lineSize.toNat - 1 < 2 ^ 32
  · rw [if_pos hfits] at hsize
    by_cases hlast : tempAddr.toNat +
        (size.toNat + lineSize.toNat - 1) / lineSize.toNat * lineSize.toNat < 2 ^ 32
    · have hcount : count = (size.toNat + lineSize.toNat - 1) / lineSize.toNat :=
        if_pos (htemp ▸ hlast)
      rw [hend, hsize, hcount, Nat.mod_eq_of_lt hlast]
      exact .inl rfl
    · -- whole lines that pass the last line but one end with the address space
      have hcount : count = 0 := if_neg (htemp ▸ hlast)
      have hle : startAddr.toNat / lineSize.toNat +
          (size.toNat + lineSize.toNat - 1) / lineSize.toNat ≤ lines := by
        refine Nat.le_of_lt_succ (Nat.lt_of_mul_lt_mul_right (a := lineSize.toNat) ?_)
        rw [Nat.succ_mul, Nat.add_mul, hlines, hround]
        omega
      have hmul := Nat.mul_le_mul_right lineSize.toNat hle
      rw [Nat.add_mul, hlines] at hmul
      refine .inr ⟨?_, hcount⟩
      rw [BitVec.le_def, hend, hsize]
      omega
  · rw [if_neg hfits] at hsize
    have hmany : lines ≤ (size.toNat + lineSize.toNat - 1) / lineSize.toNat := by
      rw [Nat.le_div_iff_mul_le hpos]
      omega
    have hmul := Nat.mul_le_mul_right lineSize.toNat hmany
    have hcount : count = 0 := if_neg (by omega)
    refine .inr ⟨?_, hcount⟩
    rw [BitVec.le_def, hend, hsize]
    omega

/-- **The lines of a call.** The loop of a call on a range inside the address space ends; it
works on `lineCount` lines from the line of the start on. -/
theorem cacheRange_spec (ops : List CacheOp)
    (hline : lineSize.toNat = 2 ^ k) (hwrap : startAddr.toNat + size.toNat ≤ 2 ^ 32) :
    ∃ trace, EndsWith (cacheRange ops lineSize startAddr size) trace ∧
      ∀ op a, (op, a) ∈ trace ↔ op ∈ ops ∧
        ∃ i < lineCount lineSize.toNat startAddr.toNat size.toNat,
          a.toNat = startAddr.toNat - startAddr.toNat % lineSize.toNat + i * lineSize.toNat := by
  have hpos : 0 < lineSize.toNat := hline ▸ Nat.two_pow_pos k
  have htemp : (alignDown startAddr lineSize).toNat =
      startAddr.toNat - startAddr.toNat % lineSize.toNat := by
    rw [toNat_alignDown _ hline, hline]
  rw [← htemp]
  rcases cacheRange_end hline hwrap with hend | ⟨hstop, hcount⟩
  · obtain ⟨trace, hrun, hmem⟩ := cacheLoop_spec ops _ _ hpos hend
    exact ⟨trace, ⟨_, fun fuel hfuel => hrun fuel hfuel⟩, hmem⟩
  · rw [hcount]
    refine ⟨[], ⟨1, ?_⟩, by simp⟩
    rintro (_ | fuel) hfuel
    · omega
    · exact if_neg (BitVec.not_lt.mpr hstop)

/-- The lines end behind the range exactly when they reach. -/
theorem le_lineCount_iff (hline : lineSize.toNat = 2 ^ k) (hsize : 0 < size.toNat) :
    startAddr.toNat + size.toNat ≤ startAddr.toNat - startAddr.toNat % lineSize.toNat +
        lineCount lineSize.toNat startAddr.toNat size.toNat * lineSize.toNat ↔
      LinesReach lineSize startAddr size := by
  have hpos : 0 < lineSize.toNat := hline ▸ Nat.two_pow_pos k
  obtain ⟨lines, hlines⟩ := exists_lines_eq hline
  have hdiv := Nat.div_add_mod' startAddr.toNat lineSize.toNat
  have hround := lines_mul_eq size.toNat hpos
  have hpad : (lineSize.toNat - size.toNat % lineSize.toNat) % lineSize.toNat < lineSize.toNat :=
    Nat.mod_lt _ hpos
  have hmod : startAddr.toNat % lineSize.toNat < lineSize.toNat := Nat.mod_lt _ hpos
  unfold LinesReach lineCount
  split
  · next hlast =>
      -- lines that end before the last one leave that one free
      have hlt : startAddr.toNat / lineSize.toNat +
          (size.toNat + lineSize.toNat - 1) / lineSize.toNat < lines := by
        refine Nat.lt_of_mul_lt_mul_right (a := lineSize.toNat) ?_
        rw [Nat.add_mul, hlines]
        omega
      have hmul := Nat.mul_le_mul_right lineSize.toNat hlt
      rw [Nat.succ_mul, Nat.add_mul, hlines] at hmul
      omega
  · omega

/-- Lines from the line of `lo` on hold every address before `hi` exactly when they end behind
it. -/
theorem lines_cover_iff {line lo hi : ℕ} (hline : 0 < line) (hlt : lo < hi) (count : ℕ) :
    (∀ x, lo ≤ x → x < hi → ∃ i < count, x / line = lo / line + i) ↔
      hi ≤ (lo / line + count) * line := by
  constructor
  · intro hcov
    obtain ⟨i, hcount, hlast⟩ := hcov (hi - 1) (by omega) (by omega)
    have hbehind : (hi - 1) / line < lo / line + count := by omega
    rw [Nat.div_lt_iff_lt_mul hline] at hbehind
    omega
  · intro hle x hlo hhi
    have hfirst : lo / line ≤ x / line := Nat.div_le_div_right hlo
    have hlast : x / line < lo / line + count := by
      rw [Nat.div_lt_iff_lt_mul hline]
      omega
    exact ⟨x / line - lo / line, by omega, by omega⟩

/-- **Coverage of one loop.** The loop of a call on a range that is not empty works with each
of its operations on all lines of the range exactly when the lines reach. -/
theorem cacheRange_covers_iff {ops : List CacheOp} (hop : op ∈ ops) (hline : lineSize.toNat = 2 ^ k)
    (hsize : 0 < size.toNat) (hwrap : startAddr.toNat + size.toNat ≤ 2 ^ 32)
    (htrace : EndsWith (cacheRange ops lineSize startAddr size) trace) :
    CoversLines op lineSize startAddr size trace ↔ LinesReach lineSize startAddr size := by
  have hpos : 0 < lineSize.toNat := hline ▸ Nat.two_pow_pos k
  obtain ⟨trace', htrace', hmem⟩ := cacheRange_spec ops hline hwrap
  obtain rfl := htrace.unique htrace'
  have hstart : startAddr.toNat - startAddr.toNat % lineSize.toNat =
      startAddr.toNat / lineSize.toNat * lineSize.toNat := by
    have := Nat.div_add_mod' startAddr.toNat lineSize.toNat
    omega
  rw [← le_lineCount_iff hline hsize]
  rw [hstart] at hmem ⊢
  rw [← Nat.add_mul, ← lines_cover_iff hpos (by omega)]
  refine forall_congr' fun x => imp_congr_right fun hlo => imp_congr_right fun hhi => ?_
  constructor
  · rintro ⟨a, ha, hline⟩
    obtain ⟨-, i, hi, hai⟩ := (hmem op a).mp ha
    refine ⟨i, hi, ?_⟩
    rw [← hline, hai, ← Nat.add_mul, Nat.mul_div_cancel _ hpos]
  · rintro ⟨i, hi, hline⟩
    have hbase : x / lineSize.toNat * lineSize.toNat ≤ x := Nat.div_mul_le_self _ _
    have ha : (BitVec.ofNat 32 (x / lineSize.toNat * lineSize.toNat)).toNat =
        x / lineSize.toNat * lineSize.toNat := by
      rw [BitVec.toNat_ofNat, Nat.mod_eq_of_lt (by omega)]
    refine ⟨BitVec.ofNat 32 (x / lineSize.toNat * lineSize.toNat),
      (hmem op _).mpr ⟨hop, i, hi, ?_⟩, ?_⟩
    · rw [ha, hline, Nat.add_mul]
    · rw [ha, Nat.mul_div_cancel _ hpos]

/-! ### The four functions -/

/-- The coverage of a run is that of its result. -/
theorem EndsWith.coversRange_iff {cacheSize : BitVec 32}
    {run : ℕ → Option (List (CacheOp × BitVec 32))} (htrace : EndsWith run trace) :
    CoversRange op cacheSize lineSize startAddr size run ↔
      (cacheSize ≠ 0 → CoversLines op lineSize startAddr size trace) := by
  constructor
  · rintro ⟨trace', htrace', hcov⟩
    obtain rfl := htrace.unique htrace'
    exact hcov
  · intro hcov
    exact ⟨trace, htrace, hcov⟩

/-- The coverage of a function that is one loop on a cache that is present, and does nothing
on one that is not. -/
theorem coversRange_ite_iff {cacheSize : BitVec 32}
    (hpow : cacheSize ≠ 0 → ∃ k, lineSize.toNat = 2 ^ k) (hsize : 0 < size.toNat)
    (hwrap : startAddr.toNat + size.toNat ≤ 2 ^ 32) :
    CoversRange op cacheSize lineSize startAddr size (fun fuel =>
        if cacheSize ≠ 0 then cacheRange [op] lineSize startAddr size fuel else some []) ↔
      (cacheSize ≠ 0 → LinesReach lineSize startAddr size) := by
  by_cases hcache : cacheSize = 0
  · have hend : EndsWith (fun fuel =>
        if cacheSize ≠ 0 then cacheRange [op] lineSize startAddr size fuel else some []) [] :=
      ⟨0, fun _ _ => if_neg (not_not.mpr hcache)⟩
    rw [hend.coversRange_iff]
    exact iff_of_true (fun h => absurd hcache h) (fun h => absurd hcache h)
  · obtain ⟨k, hline⟩ := hpow hcache
    obtain ⟨trace, htrace, -⟩ := cacheRange_spec [op] hline hwrap
    simp only [ne_eq, hcache, not_false_eq_true, if_true, true_implies]
    rw [htrace.coversRange_iff,
      cacheRange_covers_iff (List.mem_singleton_self op) hline hsize hwrap htrace]
    exact ⟨fun h => h hcache, fun h _ => h⟩

/-- Operations of another kind behind or in front of a list do not change what it covers. -/
theorem coversLines_append_iff
    {front back : List (CacheOp × BitVec 32)} (hfront : ∀ a, (op, a) ∉ front)
    (hback : ∀ a, (op, a) ∉ back) :
    CoversLines op lineSize startAddr size (front ++ trace ++ back) ↔
      CoversLines op lineSize startAddr size trace := by
  simp only [CoversLines, List.mem_append, hfront, hback, false_or, or_false]

/-- With both caches present, `arch_cache_flush` covers the lines of each cache exactly when
its lines reach. -/
theorem archCacheFlush_covers_iff_of_present {d : CacheData} (hpow : d.PowerLines)
    (hi : d.icacheSize ≠ 0) (hd : d.dcacheSize ≠ 0)
    (hsize : 0 < size.toNat) (hwrap : startAddr.toNat + size.toNat ≤ 2 ^ 32) :
    ∃ trace, EndsWith (archCacheFlush d startAddr size) trace ∧
      (CoversLines .hitInvI d.icacheLineSize startAddr size trace ↔
        LinesReach d.icacheLineSize startAddr size) ∧
      (CoversLines .hitWritebackInvD d.dcacheLineSize startAddr size trace ↔
        LinesReach d.dcacheLineSize startAddr size) := by
  obtain ⟨ki, hki⟩ := hpow.icache hi
  obtain ⟨kd, hkd⟩ := hpow.dcache hd
  by_cases heq : d.icacheLineSize = d.dcacheLineSize
  · have hrun : archCacheFlush d startAddr size =
        cacheRange [.hitWritebackInvD, .hitInvI] d.icacheLineSize startAddr size := by
      funext fuel
      rw [archCacheFlush, if_pos ⟨hi, hd⟩, if_pos heq]
    obtain ⟨trace, htrace, -⟩ :=
      cacheRange_spec [.hitWritebackInvD, .hitInvI] hki hwrap
    refine ⟨trace, hrun ▸ htrace, cacheRange_covers_iff (by simp) hki hsize hwrap htrace, ?_⟩
    rw [← heq]
    exact cacheRange_covers_iff (by simp) hki hsize hwrap htrace
  · obtain ⟨flushed, hflushed, hmemD⟩ := cacheRange_spec [.hitWritebackInvD] hkd hwrap
    obtain ⟨dropped, hdropped, hmemI⟩ := cacheRange_spec [.hitInvI] hki hwrap
    have hboth : EndsWith (archCacheFlush d startAddr size) (flushed ++ dropped) := by
      obtain ⟨m, hm⟩ := hflushed
      obtain ⟨n, hn⟩ := hdropped
      refine ⟨max m n, ?_⟩
      intro fuel hfuel
      rw [archCacheFlush, if_pos ⟨hi, hd⟩, if_neg heq, archDcacheFlush, if_pos hd, archIcacheFlush,
        if_pos hi, hm fuel (le_of_max_le_left hfuel), hn fuel (le_of_max_le_right hfuel)]
      rfl
    have hnoI : ∀ a, (CacheOp.hitInvI, a) ∉ flushed := by
      intro a ha
      exact absurd ((hmemD _ a).mp ha).1 (by decide)
    have hnoD : ∀ a, (CacheOp.hitWritebackInvD, a) ∉ dropped := by
      intro a ha
      exact absurd ((hmemI _ a).mp ha).1 (by decide)
    refine ⟨flushed ++ dropped, hboth, ?_, ?_⟩
    · rw [← List.append_nil (flushed ++ dropped), coversLines_append_iff hnoI (by simp)]
      exact cacheRange_covers_iff (by simp) hki hsize hwrap hdropped
    · rw [← List.nil_append flushed, coversLines_append_iff (by simp) hnoD]
      exact cacheRange_covers_iff (by simp) hkd hsize hwrap hflushed

/-- **Coverage of cache maintenance.** For every start, every size of at least `1` without
wrap of the address, and power-of-two lines of the caches that are present, each of the
four functions ends, and works on all lines of the range exactly when:

* for the functions on one cache, the cache is absent or its lines reach;
* for `arch_cache_flush`, both caches are absent, or both are present and the lines of each
  reach. -/
theorem archCache_covers_iff {d : CacheData} (hpow : d.PowerLines) {startAddr size : BitVec 32}
    (hsize : 1 ≤ size.toNat) (hwrap : startAddr.toNat + size.toNat ≤ 2 ^ 32) :
    (CoversRange .hitWritebackInvD d.dcacheSize d.dcacheLineSize startAddr size
        (archDcacheFlush d startAddr size) ↔
      (d.dcacheSize ≠ 0 → LinesReach d.dcacheLineSize startAddr size)) ∧
    (CoversRange .hitInvD d.dcacheSize d.dcacheLineSize startAddr size
        (archDcacheInvalidate d startAddr size) ↔
      (d.dcacheSize ≠ 0 → LinesReach d.dcacheLineSize startAddr size)) ∧
    (CoversRange .hitInvI d.icacheSize d.icacheLineSize startAddr size
        (archIcacheFlush d startAddr size) ↔
      (d.icacheSize ≠ 0 → LinesReach d.icacheLineSize startAddr size)) ∧
    (CoversRange .hitInvI d.icacheSize d.icacheLineSize startAddr size
          (archCacheFlush d startAddr size) ∧
        CoversRange .hitWritebackInvD d.dcacheSize d.dcacheLineSize startAddr size
          (archCacheFlush d startAddr size) ↔
      (d.icacheSize ≠ 0 ↔ d.dcacheSize ≠ 0) ∧
        (d.icacheSize ≠ 0 → LinesReach d.icacheLineSize startAddr size) ∧
        (d.dcacheSize ≠ 0 → LinesReach d.dcacheLineSize startAddr size)) := by
  refine ⟨coversRange_ite_iff hpow.dcache hsize hwrap, coversRange_ite_iff hpow.dcache hsize hwrap,
    coversRange_ite_iff hpow.icache hsize hwrap, ?_⟩
  by_cases hboth : d.icacheSize ≠ 0 ∧ d.dcacheSize ≠ 0
  · obtain ⟨trace, htrace, hcovI, hcovD⟩ :=
      archCacheFlush_covers_iff_of_present hpow hboth.1 hboth.2 hsize hwrap
    rw [htrace.coversRange_iff, htrace.coversRange_iff, hcovI, hcovD]
    exact ⟨fun h => ⟨iff_of_true hboth.1 hboth.2, h⟩, fun h => h.2⟩
  · -- nothing is done, so a cache that is present is not covered
    have hend : EndsWith (archCacheFlush d startAddr size) [] := by
      refine ⟨0, fun fuel _ => ?_⟩
      rw [archCacheFlush, if_neg hboth]
    have hnot : ∀ op lineSize, ¬ CoversLines op lineSize startAddr size [] := by
      intro op lineSize hcov
      obtain ⟨a, ha, -⟩ := hcov startAddr.toNat le_rfl (by omega)
      exact List.not_mem_nil ha
    rw [hend.coversRange_iff, hend.coversRange_iff]
    constructor
    · rintro ⟨hI, hD⟩
      have hi : ¬ d.icacheSize ≠ 0 := fun h => hnot _ _ (hI h)
      have hd : ¬ d.dcacheSize ≠ 0 := fun h => hnot _ _ (hD h)
      exact ⟨iff_of_false hi hd, fun h => absurd h hi, fun h => absurd h hd⟩
    · rintro ⟨hiff, -, -⟩
      exact ⟨fun h => absurd ⟨h, hiff.mp h⟩ hboth, fun h => absurd ⟨hiff.mpr h, h⟩ hboth⟩

/-- Caches of 32 and 64 KiB with lines of 32 bytes, and a range of three whole lines. -/
theorem archCacheFlush_covers_three_lines :
    CoversRange .hitInvI 0x10000 32 0x80000020 96
        (archCacheFlush ⟨0x10000, 32, 0x8000, 32⟩ 0x80000020 96) ∧
      CoversRange .hitWritebackInvD 0x8000 32 0x80000020 96
        (archCacheFlush ⟨0x10000, 32, 0x8000, 32⟩ 0x80000020 96) :=
  (archCache_covers_iff (d := ⟨0x10000, 32, 0x8000, 32⟩) ⟨fun _ => ⟨5, rfl⟩, fun _ => ⟨5, rfl⟩⟩
    (by decide) (by decide)).2.2.2.mpr
    ⟨by decide, fun _ => by decide, fun _ => by decide⟩

/-- Eight bytes across the border of two lines: `arch_dcache_flush` works on the first line
only. -/
theorem archDcacheFlush_misses_line :
    ¬ CoversRange .hitWritebackInvD 0x8000 32 0x8000001C 8
      (archDcacheFlush ⟨0x10000, 32, 0x8000, 32⟩ 0x8000001C 8) := by
  intro hcov
  have hpow : (0x8000 : BitVec 32) ≠ 0 → ∃ k, (32 : BitVec 32).toNat = 2 ^ k := fun _ => ⟨5, rfl⟩
  have hreach := (coversRange_ite_iff hpow (by decide) (by decide)).mp hcov (by decide)
  exact absurd hreach (by decide)

end RtBoot
