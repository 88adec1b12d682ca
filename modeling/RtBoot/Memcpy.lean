import RtBoot.Relocation

/-!
# The Freestanding `memcpy`

The compiler may emit calls of `memcpy` for assignments of structures, so the boot loader
brings one along beside `rt_memcpy`. It compares the two pointers: when the destination
starts at or below the source, or behind its end, it copies upwards, and otherwise from the
last byte down. The upward loop is the byte loop of `rt_memcpy`.

Both loops leave an interval of positions copied and everything else as it was
(`CopiedRange`). A loop may go on as long as the source byte it reads next has not been
overwritten, and the comparison of the pointers is what decides that for all of its bytes.
Pointers are compared as 32-bit numbers, so the end of the source is computed modulo
`2 ^ 32`.

## Main results

* `CopiedRange.above`, `CopiedRange.below`: one more byte at either end of the interval.
* `memcpy_copied`: whatever the overlap of two ranges that do not wrap around, `memcpy`
  copies one to the other and changes nothing else.
-/

namespace RtBoot

/-- The downward loop of `memcpy`. -/
def downLoop (m : Mem) (tmp s : BitVec 32) : ℕ → Mem
  | 0 => m
  | len + 1 => downLoop (Function.update m (addr tmp len) (m (addr s len))) tmp s len

/-- `memcpy`: the memory it leaves and the pointer it returns. -/
def memcpy (m : Mem) (dst src count : BitVec 32) : Mem × BitVec 32 :=
  if dst ≤ src ∨ src + count < dst then (byteLoop m dst src count.toNat, dst)
  else (downLoop m dst src count.toNat, dst)

/-! ### Intervals of copied bytes -/

/-- `m` arises from `m₀` by copying the bytes at the positions from `lo` up to `hi`. -/
structure CopiedRange (m₀ m : Mem) (dst src : BitVec 32) (lo hi : ℕ) : Prop where
  copied : ∀ i, lo ≤ i → i < hi → m (addr dst i) = m₀ (addr src i)
  frame : ∀ a, (∀ i, lo ≤ i → i < hi → a ≠ addr dst i) → m a = m₀ a

theorem copiedRange_empty (m : Mem) (dst src : BitVec 32) (n : ℕ) :
    CopiedRange m m dst src n n :=
  ⟨fun _ hle hlt => absurd hle (Nat.not_le_of_lt hlt), fun _ _ => rfl⟩

section
variable {m₀ m : Mem} {dst src : BitVec 32} {lo hi : ℕ}

theorem CopiedRange.toCopied (h : CopiedRange m₀ m dst src 0 hi) : Copied m₀ m dst src hi :=
  ⟨fun i => h.copied i (Nat.zero_le i), fun a ha => h.frame a fun i _ => ha i⟩

/-- Copying a byte `n` outside the interval, when the source byte is still as it was. -/
theorem CopiedRange.update {n : ℕ} (h : CopiedRange m₀ m dst src lo hi) (hn : n < 2 ^ 32)
    (hhi : hi ≤ 2 ^ 32) (hout : ¬ (lo ≤ n ∧ n < hi))
    (hsource : ∀ i, lo ≤ i → i < hi → addr src n ≠ addr dst i) :
    let m' := Function.update m (addr dst n) (m (addr src n))
    (∀ i, lo ≤ i → i < hi → m' (addr dst i) = m₀ (addr src i)) ∧
      m' (addr dst n) = m₀ (addr src n) ∧
      ∀ a, a ≠ addr dst n → (∀ i, lo ≤ i → i < hi → a ≠ addr dst i) → m' a = m₀ a := by
  refine ⟨?_, ?_, ?_⟩
  · intro i hle hlt
    have hne : addr dst i ≠ addr dst n := by
      intro heq
      have := addr_injOn (by omega) hn heq
      omega
    rw [Function.update_of_ne hne, h.copied i hle hlt]
  · rw [Function.update_self, h.frame _ hsource]
  · intro a hne ha
    rw [Function.update_of_ne hne, h.frame a ha]

/-- One more byte at the upper end. -/
theorem CopiedRange.above (h : CopiedRange m₀ m dst src lo hi) (hle : lo ≤ hi)
    (hhi : hi < 2 ^ 32) (hsource : ∀ i, lo ≤ i → i < hi → addr src hi ≠ addr dst i) :
    CopiedRange m₀ (Function.update m (addr dst hi) (m (addr src hi))) dst src lo (hi + 1) := by
  obtain ⟨hold, hnew, hframe⟩ := h.update hhi (by omega) (by omega) hsource
  constructor
  · intro i hlo hlt
    rcases Nat.lt_succ_iff_lt_or_eq.mp hlt with hbelow | rfl
    · exact hold i hlo hbelow
    · exact hnew
  · intro a ha
    exact hframe a (ha hi hle (by omega)) fun i hlo hlt => ha i hlo (by omega)

/-- One more byte at the lower end. -/
theorem CopiedRange.below (h : CopiedRange m₀ m dst src (lo + 1) hi) (hlt : lo < hi)
    (hhi : hi ≤ 2 ^ 32) (hsource : ∀ i, lo < i → i < hi → addr src lo ≠ addr dst i) :
    CopiedRange m₀ (Function.update m (addr dst lo) (m (addr src lo))) dst src lo hi := by
  obtain ⟨hold, hnew, hframe⟩ := h.update (by omega) hhi (by omega) hsource
  constructor
  · intro i hle hi'
    rcases Nat.eq_or_lt_of_le hle with rfl | habove
    · exact hnew
    · exact hold i habove hi'
  · intro a ha
    exact hframe a (ha lo (by omega) hlt) fun i hlo => ha i (by omega)

end

/-! ### The two loops -/

section
variable {m₀ m : Mem} {dst src : BitVec 32}

/-- The upward loop copies when it never reads a byte it has written. -/
theorem byteLoop_copiedRange {n len total : ℕ} (h : CopiedRange m₀ m dst src 0 n)
    (hlen : n + len = total) (htotal : total ≤ 2 ^ 32)
    (hsource : ∀ j < total, ∀ i < j, addr src j ≠ addr dst i) :
    CopiedRange m₀ (byteLoop m (addr dst n) (addr src n) len) dst src 0 total := by
  induction len generalizing m n with
  | zero =>
      obtain rfl : n = total := by omega
      exact h
  | succ len ih =>
      rw [byteLoop, addr_addr, addr_addr]
      exact ih (h.above (Nat.zero_le n) (by omega) fun i _ => hsource n (by omega) i) (by omega)

/-- The downward loop likewise. -/
theorem downLoop_copiedRange {len total : ℕ} (h : CopiedRange m₀ m dst src len total)
    (hlen : len ≤ total) (htotal : total ≤ 2 ^ 32)
    (hsource : ∀ i < total, ∀ j < i, addr src j ≠ addr dst i) :
    CopiedRange m₀ (downLoop m dst src len) dst src 0 total := by
  induction len generalizing m with
  | zero => exact h
  | succ len ih =>
      rw [downLoop]
      exact ih (h.below (by omega) htotal fun i hlt hi => hsource i hi len hlt) (by omega)

end

/-- Inside a range that does not wrap around, positions are distances. -/
theorem toNat_addr_of_lt {a : BitVec 32} {i : ℕ} (h : a.toNat + i < 2 ^ 32) :
    (addr a i).toNat = a.toNat + i := by
  rw [addr, BitVec.toNat_add, BitVec.toNat_ofNat, Nat.add_mod_mod, Nat.mod_eq_of_lt h]

/-- **`memcpy` copies** a range to another, however the two overlap, and changes nothing
outside the destination. It returns the destination. -/
theorem memcpy_copied (m : Mem) {dst src count : BitVec 32}
    (hdst : dst.toNat + count.toNat ≤ 2 ^ 32) (hsrc : src.toNat + count.toNat ≤ 2 ^ 32) :
    Copied m (memcpy m dst src count).1 dst src count.toNat ∧
      (memcpy m dst src count).2 = dst := by
  -- the source byte at `j` is the destination byte at `i` only if the pointers are as far
  -- apart as `i` and `j`
  have hmeet : ∀ i < count.toNat, ∀ j < count.toNat, addr src j = addr dst i →
      src.toNat + j = dst.toNat + i := by
    intro i hi j hj heq
    have := congrArg BitVec.toNat heq
    rwa [toNat_addr_of_lt (by omega), toNat_addr_of_lt (by omega)] at this
  have hcount : count.toNat ≤ 2 ^ 32 := by omega
  rw [memcpy]
  split
  · next hup =>
      have hsource : ∀ j < count.toNat, ∀ i < j, addr src j ≠ addr dst i := by
        intro j hj i hij heq
        have hsum := hmeet i (by omega) j hj heq
        rcases hup with hle | hbehind
        · have := BitVec.le_def.mp hle
          omega
        · -- the destination starts behind the source here, so the source's end does not wrap
          have := BitVec.lt_def.mp hbehind
          rw [BitVec.toNat_add, Nat.mod_eq_of_lt (by omega)] at this
          omega
      have := byteLoop_copiedRange (copiedRange_empty m dst src 0) (Nat.zero_add _) hcount hsource
      rw [addr_zero, addr_zero] at this
      exact ⟨this.toCopied, rfl⟩
  · next hdown =>
      have hlt : src.toNat < dst.toNat :=
        Nat.lt_of_not_le fun hle => hdown (.inl (BitVec.le_def.mpr hle))
      have hsource : ∀ i < count.toNat, ∀ j < i, addr src j ≠ addr dst i := by
        intro i hi j hji heq
        have hsum := hmeet i hi j (by omega) heq
        omega
      exact ⟨(downLoop_copiedRange (copiedRange_empty m dst src _) (Nat.le_refl _) hcount
        hsource).toCopied, rfl⟩

/-- A range moved up by two bytes onto its own end, at the top of memory. -/
theorem memcpy_overlapping_top :
    Copied (fun a => a.setWidth 8) (memcpy (fun a => a.setWidth 8) 0xFFFFFFFA 0xFFFFFFF8 6).1
        0xFFFFFFFA 0xFFFFFFF8 6 ∧
      (memcpy (fun a => a.setWidth 8) 0xFFFFFFFA 0xFFFFFFF8 6).2 = 0xFFFFFFFA :=
  memcpy_copied _ (show (0xFFFFFFFA : BitVec 32).toNat + (6 : BitVec 32).toNat ≤ 2 ^ 32 by decide)
    (by decide)

end RtBoot
