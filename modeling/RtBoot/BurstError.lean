import Mathlib.Data.BitVec
import Mathlib.Data.List.Zip
import Mathlib.Tactic.Common

/-!
# Burst Errors

A cyclic redundancy check of `w` bits takes in a message byte by byte: the byte is added to
the low end of the remainder and the remainder is shifted down by eight places, with a
correction for the bits that leave it. All that the detection of burst errors needs of the
shift is collected in `ShiftsBytes`:

* it is linear in exclusive or;
* when nothing stands in the eight highest places afterwards, nothing but zeros left, and
  the remainder was only moved.

The difference of two remainders then behaves like the remainder of the difference, and a
difference that vanishes within `w` bits has never been there.

## Main results

* `ShiftsBytes.remainder_xor`: remainders of two messages differ by that of the difference.
* `ShiftsBytes.eq_zero_of_remainder`: a short message with remainder zero is zero.
* `ShiftsBytes.remainder_ne_of_burst`: **messages that differ within a window of at most
  `w` bits have different remainders.**
-/

namespace RtBoot

/-- A shift of the remainder by one byte. -/
structure ShiftsBytes {w : ℕ} (shift : BitVec w → BitVec w) : Prop where
  xor : ∀ x y, shift (x ^^^ y) = shift x ^^^ shift y
  moved : ∀ x, (shift x).toNat < 2 ^ (w - 8) → x.toNat = (shift x).toNat * 2 ^ 8

/-- The remainder after the bytes `bs`, from `r` on. -/
def remainder {w : ℕ} (shift : BitVec w → BitVec w) (r : BitVec w) (bs : List (BitVec 8)) :
    BitVec w :=
  bs.foldl (fun r b => shift (r ^^^ b.setWidth w)) r

section
variable {w : ℕ} {shift : BitVec w → BitVec w}

@[simp] theorem remainder_nil (r : BitVec w) : remainder shift r [] = r :=
  rfl

@[simp] theorem remainder_cons (r : BitVec w) (b : BitVec 8) (bs : List (BitVec 8)) :
    remainder shift r (b :: bs) = remainder shift (shift (r ^^^ b.setWidth w)) bs :=
  rfl

theorem remainder_append (r : BitVec w) (bs cs : List (BitVec 8)) :
    remainder shift r (bs ++ cs) = remainder shift (remainder shift r bs) cs :=
  List.foldl_append

namespace ShiftsBytes

theorem zero (h : ShiftsBytes shift) : shift 0#w = 0#w := by
  have := h.xor 0#w 0#w
  rwa [BitVec.xor_self, BitVec.xor_self] at this

/-- Only zero is shifted to zero. -/
theorem eq_zero (h : ShiftsBytes shift) {x : BitVec w} (hx : shift x = 0#w) : x = 0#w := by
  have := h.moved x (by rw [hx]; exact Nat.two_pow_pos _)
  rw [hx, BitVec.toNat_zero, Nat.zero_mul] at this
  exact BitVec.eq_of_toNat_eq this

/-- **Remainders of two messages differ by that of the difference.** -/
theorem remainder_xor (h : ShiftsBytes shift) (r s : BitVec w) {bs cs : List (BitVec 8)}
    (hlen : bs.length = cs.length) :
    remainder shift r bs ^^^ remainder shift s cs =
      remainder shift (r ^^^ s) (List.zipWith (· ^^^ ·) bs cs) := by
  induction bs generalizing r s cs with
  | nil =>
      obtain rfl : cs = [] := List.length_eq_zero_iff.mp hlen.symm
      rfl
  | cons b bs ih =>
      cases cs with
      | nil => exact absurd hlen (by simp)
      | cons c cs =>
          have hswap : r ^^^ b.setWidth w ^^^ (s ^^^ c.setWidth w) =
              r ^^^ s ^^^ (b ^^^ c).setWidth w := by
            rw [BitVec.setWidth_xor]
            ac_rfl
          rw [remainder_cons, remainder_cons, ih _ _ (Nat.succ.inj hlen), List.zipWith_cons_cons,
            remainder_cons, ← h.xor, hswap]

/-- A remainder that the next bytes bring to zero has no bits beyond theirs. -/
theorem lt_of_remainder (h : ShiftsBytes shift) {r : BitVec w} {es : List (BitVec 8)}
    (hlen : 8 * es.length ≤ w) (hzero : remainder shift r es = 0#w) :
    r.toNat < 2 ^ (8 * es.length) := by
  induction es generalizing r with
  | nil =>
      obtain rfl : r = 0#w := hzero
      simp
  | cons e es ih =>
      rw [List.length_cons] at hlen ⊢
      have hnext := ih (by omega) hzero
      have hmoved := h.moved (r ^^^ e.setWidth w)
        (Nat.lt_of_lt_of_le hnext (Nat.pow_le_pow_right (by decide) (by omega)))
      have hlt : (r ^^^ e.setWidth w).toNat < 2 ^ (8 * (es.length + 1)) := by
        rw [hmoved, Nat.mul_add, Nat.mul_one, Nat.pow_add]
        exact Nat.mul_lt_mul_of_pos_right hnext (Nat.two_pow_pos _)
      have he : (e.setWidth w).toNat < 2 ^ (8 * (es.length + 1)) := by
        rw [BitVec.toNat_setWidth]
        exact Nat.lt_of_le_of_lt (Nat.mod_le _ _) (Nat.lt_of_lt_of_le e.isLt
          (Nat.pow_le_pow_right (by decide) (by omega)))
      have hr : r = r ^^^ e.setWidth w ^^^ e.setWidth w := by
        rw [BitVec.xor_assoc, BitVec.xor_self, BitVec.xor_zero]
      rw [hr, BitVec.toNat_xor]
      exact Nat.xor_lt_two_pow hlt he

/-- **A short message with remainder zero is zero.** -/
theorem eq_zero_of_remainder (h : ShiftsBytes shift) {es : List (BitVec 8)}
    (hlen : 8 * es.length ≤ w) (hzero : remainder shift 0#w es = 0#w) : ∀ e ∈ es, e = 0#8 := by
  induction es with
  | nil => simp
  | cons e es ih =>
      rw [List.length_cons] at hlen
      rw [remainder_cons, BitVec.zero_xor] at hzero
      have hlt := h.lt_of_remainder (by omega) hzero
      have hmoved := h.moved (e.setWidth w)
        (Nat.lt_of_lt_of_le hlt (Nat.pow_le_pow_right (by decide) (by omega)))
      -- the first byte is a multiple of 256
      have he : e = 0#8 := by
        have hbyte := e.isLt
        rw [BitVec.toNat_setWidth, Nat.mod_eq_of_lt (Nat.lt_of_lt_of_le hbyte
          (Nat.pow_le_pow_right (by decide) (by omega)))] at hmoved
        refine BitVec.eq_of_toNat_eq ?_
        rw [BitVec.toNat_zero]
        omega
      rw [he, BitVec.setWidth_zero, h.zero] at hzero
      exact List.forall_mem_cons.mpr ⟨he, ih (by omega) hzero⟩

/-- The same bytes keep two remainders apart. -/
theorem remainder_injective (h : ShiftsBytes shift) (bs : List (BitVec 8)) :
    Function.Injective fun r => remainder shift r bs := by
  intro r s heq
  induction bs generalizing r s with
  | nil => exact heq
  | cons b bs ih =>
      have hshift : shift (r ^^^ b.setWidth w) = shift (s ^^^ b.setWidth w) := ih heq
      have hzero : shift (r ^^^ b.setWidth w ^^^ (s ^^^ b.setWidth w)) = 0#w := by
        rw [h.xor, hshift, BitVec.xor_self]
      exact (BitVec.xor_left_inj _).mp (BitVec.xor_eq_zero_iff.mp (h.eq_zero hzero))

/-- **Burst errors are detected**: messages that differ, and only in a window of at most
`w` bits, have different remainders. -/
theorem remainder_ne_of_burst (h : ShiftsBytes shift) (r : BitVec w) {us vs : List (BitVec 8)}
    (hlen : us.length = vs.length) (hw : 8 * us.length ≤ w) (hne : us ≠ vs)
    (before after : List (BitVec 8)) :
    remainder shift r (before ++ us ++ after) ≠ remainder shift r (before ++ vs ++ after) := by
  intro heq
  rw [remainder_append _ _ after, remainder_append _ _ after] at heq
  have hsame := h.remainder_injective after heq
  rw [remainder_append, remainder_append] at hsame
  have hdiff := h.remainder_xor (remainder shift r before) (remainder shift r before) hlen
  rw [hsame, BitVec.xor_self, BitVec.xor_self] at hdiff
  have hzip : (List.zipWith (· ^^^ ·) us vs).length = us.length := by
    rw [List.length_zipWith, ← hlen, Nat.min_self]
  have hzero := h.eq_zero_of_remainder (by omega) hdiff.symm
  refine hne (List.ext_getElem hlen fun i hi hi' => ?_)
  have hmem : us[i] ^^^ vs[i] ∈ List.zipWith (· ^^^ ·) us vs := by
    have hzi : i < (List.zipWith (· ^^^ ·) us vs).length := by omega
    rw [← List.getElem_zipWith (h := hzi)]
    exact List.getElem_mem hzi
  exact BitVec.xor_eq_zero_iff.mp (hzero _ hmem)

/-- The same for messages of one length that agree outside the window. -/
theorem remainder_ne_of_window (h : ShiftsBytes shift) (r : BitVec w) {bs cs : List (BitVec 8)}
    (hlen : bs.length = cs.length) {p n : ℕ} (hw : 8 * n ≤ w)
    (hagree : ∀ i, i < p ∨ p + n ≤ i → bs[i]? = cs[i]?) (hne : bs ≠ cs) :
    remainder shift r bs ≠ remainder shift r cs := by
  have hbefore : bs.take p = cs.take p := by
    refine List.ext_getElem? fun i => ?_
    rw [List.getElem?_take, List.getElem?_take]
    split
    · exact hagree i (.inl ‹_›)
    · rfl
  have hafter : bs.drop (p + n) = cs.drop (p + n) := by
    refine List.ext_getElem? fun i => ?_
    rw [List.getElem?_drop, List.getElem?_drop]
    exact hagree _ (.inr (Nat.le_add_right _ _))
  have hsplit : ∀ l : List (BitVec 8), l = l.take p ++ (l.drop p).take n ++ l.drop (p + n) := by
    intro l
    rw [List.append_assoc, ← List.drop_drop, List.take_append_drop, List.take_append_drop]
  rw [hsplit bs, hsplit cs, hbefore, hafter]
  refine h.remainder_ne_of_burst r ?_ ?_ ?_ _ _
  · simp [hlen]
  · exact Nat.le_trans (Nat.mul_le_mul_left 8 (List.length_take_le _ _)) hw
  · intro hwin
    refine hne ?_
    rw [hsplit bs, hsplit cs, hbefore, hafter, hwin]

end ShiftsBytes

end

end RtBoot
