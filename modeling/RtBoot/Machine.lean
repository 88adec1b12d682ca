import Mathlib.Data.Int.ModEq
import Mathlib.Data.List.Basic
import Mathlib.Tactic.Common

/-!
# Machine Integers

The code under verification runs on a 32-bit machine: `rt_uint32_t` arithmetic is
modulo `2 ^ 32`, and `int` is the signed representative of the same residue. Values are
kept as mathematical integers, and the two functions below say where a result is cut
back to the machine word:

* `u32 z` — the value of `z` converted to `rt_uint32_t`;
* `i32 z` — the value of `z` converted to `int`.

Both depend only on the residue of `z`, so a chain of additions may be cut back at every
step or once at the end (`u32_i32_add`).

Addresses are bit vectors. `alignDown x size` clears the low bits of an address;
`toNat_alignDown` says what that does to its value.
-/

namespace RtBoot

/-- Conversion to `rt_uint32_t`: the residue modulo `2 ^ 32`. -/
def u32 (z : ℤ) : ℕ :=
  (z % 4294967296).toNat

/-- Conversion to `int`: the residue modulo `2 ^ 32` in `[-2 ^ 31, 2 ^ 31)`. -/
def i32 (z : ℤ) : ℤ :=
  z.bmod 4294967296

/-- Conversion to `uint64_t`: the residue modulo `2 ^ 64`. -/
def u64 (z : ℤ) : ℕ :=
  (z % 18446744073709551616).toNat

@[simp] theorem u32_natCast (n : ℕ) : u32 (n : ℤ) = n % 4294967296 := by
  unfold u32
  omega

theorem u32_natCast_of_lt {n : ℕ} (h : n < 4294967296) : u32 (n : ℤ) = n := by
  rw [u32_natCast, Nat.mod_eq_of_lt h]

/-- An unsigned number below `2 ^ 31` is the same `int`. -/
theorem i32_natCast_of_lt {n : ℕ} (h : n < 2147483648) : i32 n = n := by
  unfold i32
  rw [Int.bmod_def]
  split <;> omega

/-- An intermediate cut to `int` is invisible in the unsigned result of an addition. -/
theorem u32_i32_add (a b : ℤ) : u32 (i32 a + b) = u32 (a + b) := by
  unfold u32 i32
  rw [Int.bmod_def]
  split <;> omega

/-! ### Alignment -/

/-- `x & ~(size - 1)`. -/
def alignDown {w : ℕ} (x size : BitVec w) : BitVec w :=
  x &&& ~~~(size - 1)

/-- Clearing the low bits is shifting them out. -/
theorem and_not_mask_eq_shift {w : ℕ} (x : BitVec w) (k : ℕ) :
    x &&& ~~~(BitVec.ofNat w (2 ^ k - 1)) = (x >>> k) <<< k := by
  refine BitVec.eq_of_getLsbD_eq ?_
  intro i hi
  simp only [BitVec.getLsbD_and, BitVec.getLsbD_not, BitVec.getLsbD_ofNat,
    Nat.testBit_two_pow_sub_one, BitVec.getLsbD_shiftLeft, BitVec.getLsbD_ushiftRight, hi,
    decide_true, Bool.true_and]
  by_cases hk : i < k
  · simp [hk]
  · rw [show k + (i - k) = i by omega]
    simp [hk]

/-- Alignment drops the remainder. -/
theorem toNat_alignDown {w k : ℕ} (x : BitVec w) {size : BitVec w} (hsize : size.toNat = 2 ^ k) :
    (alignDown x size).toNat = x.toNat - x.toNat % 2 ^ k := by
  have hmask : size - 1 = BitVec.ofNat w (2 ^ k - 1) := by
    have hpos : 1 ≤ 2 ^ k := Nat.one_le_two_pow
    have hlt : 2 ^ k < 2 ^ w := hsize ▸ size.isLt
    have hpow : size = BitVec.ofNat w (2 ^ k) := by
      rw [← hsize, BitVec.ofNat_toNat, BitVec.setWidth_eq]
    rw [hpow, ← BitVec.ofNat_sub_ofNat_of_le _ _ (by omega) hpos]
    rfl
  have hle : x.toNat / 2 ^ k * 2 ^ k ≤ x.toNat := Nat.div_mul_le_self _ _
  rw [alignDown, hmask, and_not_mask_eq_shift, BitVec.toNat_shiftLeft, BitVec.toNat_ushiftRight,
    Nat.shiftRight_eq_div_pow, Nat.shiftLeft_eq,
    Nat.mod_eq_of_lt (Nat.lt_of_le_of_lt hle x.isLt)]
  have := Nat.div_add_mod' x.toNat (2 ^ k)
  omega

end RtBoot
