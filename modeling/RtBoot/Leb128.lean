import Mathlib.Data.BitVec
import Mathlib.Data.List.Basic
import Mathlib.Tactic.Common

/-!
# Variable-Length Integers

The little-endian base-128 code for natural numbers: seven bits a byte, the least
significant group first, with the top bit set on every byte but the last. The decoder
works in a 32-bit register, as small decoders do: it shifts each group into place and
combines it with the groups before it by a bitwise or. Like the machine's shifter it
takes the shift count modulo 32, so longer codes than a word needs are decoded to
something else than their value.

## Main results

* `decode_encode`: a number below `2 ^ 32` is decoded from its code, whatever follows.
* `length_encode_le`: a number below `128 ^ n` has a code of at most `n` bytes.
* `head?_encode_eq_zero`: only the code of zero starts with a zero byte.
-/

namespace RtBoot.Leb128

/-- The code of `v`. -/
def encode (v : ℕ) : List (BitVec 8) :=
  if v / 128 = 0 then [BitVec.ofNat 8 v]
  else BitVec.ofNat 8 (v % 128 + 128) :: encode (v / 128)
termination_by v
decreasing_by omega

/-- Decode one number with `shift` bits in `acc` already: the number and what is left. -/
def decode (shift : ℕ) (acc : BitVec 32) : List (BitVec 8) → Option (BitVec 32 × List (BitVec 8))
  | [] => none
  | b :: bs =>
      let acc' := acc ||| ((b &&& 0x7F).setWidth 32 <<< (shift % 32))
      if b &&& 0x80 = 0 then some (acc', bs) else decode (shift + 7) acc' bs

/-- Seven bits a byte: a number below `128 ^ n` takes at most `n` bytes. -/
theorem length_encode_le {n v : ℕ} (hn : 0 < n) (hv : v < 128 ^ n) : (encode v).length ≤ n := by
  induction n generalizing v with
  | zero => omega
  | succ n ih =>
      rw [encode]
      split
      · rw [List.length_singleton]
        omega
      · next hmore =>
          have hrest : v / 128 < 128 ^ n := by
            rw [Nat.div_lt_iff_lt_mul (by omega), ← Nat.pow_succ]
            exact hv
          have hpos : 0 < n := by
            rcases Nat.eq_zero_or_pos n with rfl | hpos
            · rw [Nat.pow_zero] at hrest
              omega
            · exact hpos
          rw [List.length_cons]
          exact Nat.succ_le_succ (ih hpos hrest)

/-- Only the code of zero starts with a zero byte. -/
theorem head?_encode_eq_zero (v : ℕ) : (encode v).head? = some 0 ↔ v = 0 := by
  rw [encode]
  split
  · rw [List.head?_cons, Option.some_inj, ← BitVec.toNat_inj, BitVec.toNat_ofNat,
      Nat.mod_eq_of_lt (by omega)]
    rfl
  · rw [List.head?_cons, Option.some_inj, ← BitVec.toNat_inj, BitVec.toNat_ofNat,
      Nat.mod_eq_of_lt (by omega)]
    constructor
    · intro h
      have : v % 128 + 128 = 0 := h
      omega
    · rintro rfl
      omega

/-- The last byte of a code: its top bit is clear, and the others are the number. -/
theorem last_byte {w : ℕ} (hw : w < 128) :
    BitVec.ofNat 8 w &&& 0x80 = 0 ∧
      (BitVec.ofNat 8 w &&& 0x7F).setWidth 32 = BitVec.ofNat 32 w := by
  have hall : ∀ w : Fin 128, BitVec.ofNat 8 w &&& 0x80 = 0 ∧
      (BitVec.ofNat 8 w &&& 0x7F).setWidth 32 = BitVec.ofNat 32 w := by decide
  exact hall ⟨w, hw⟩

/-- A byte before the last: its top bit is set. -/
theorem inner_byte {w : ℕ} (hw : w < 128) :
    BitVec.ofNat 8 (w + 128) &&& 0x80 ≠ 0 ∧
      (BitVec.ofNat 8 (w + 128) &&& 0x7F).setWidth 32 = BitVec.ofNat 32 w := by
  have hall : ∀ w : Fin 128, BitVec.ofNat 8 (w + 128) &&& 0x80 ≠ 0 ∧
      (BitVec.ofNat 8 (w + 128) &&& 0x7F).setWidth 32 = BitVec.ofNat 32 w := by decide
  exact hall ⟨w, hw⟩

/-- Shifting the next group into place extends the low bits that are known. -/
theorem or_group (v s : ℕ) :
    BitVec.ofNat 32 (v % 2 ^ s) ||| (BitVec.ofNat 32 (v / 2 ^ s % 128) <<< s) =
      BitVec.ofNat 32 (v % 2 ^ (s + 7)) := by
  refine BitVec.eq_of_getLsbD_eq ?_
  intro i hi
  have h128 : 128 = 2 ^ 7 := rfl
  rw [BitVec.getLsbD_or, BitVec.getLsbD_shiftLeft, BitVec.getLsbD_ofNat, BitVec.getLsbD_ofNat,
    BitVec.getLsbD_ofNat, Nat.testBit_mod_two_pow, Nat.testBit_mod_two_pow, h128,
    Nat.testBit_mod_two_pow, Nat.testBit_div_two_pow]
  by_cases his : i < s
  · simp [his, hi, show i < s + 7 by omega]
  · have hsum : i - s + s = i := by omega
    have hiff : i - s < 7 ↔ i < s + 7 := by omega
    simp [his, hi, hsum, hiff, show i - s < 32 by omega]

/-- The decoder in mid-code: `s` bits of `v` are known and the code of the rest follows. -/
theorem decode_encode_of_shift {v s : ℕ} (hv : v < 2 ^ 32) (hs : s < 32) (rest : List (BitVec 8)) :
    decode s (BitVec.ofNat 32 (v % 2 ^ s)) (encode (v / 2 ^ s) ++ rest) =
      some (BitVec.ofNat 32 v, rest) := by
  induction hw : v / 2 ^ s using Nat.strong_induction_on generalizing s with
  | _ w ih =>
      have hdiv : w / 128 = v / 2 ^ (s + 7) := by
        rw [← hw, Nat.div_div_eq_div_mul, Nat.pow_add]
      have hgroup := or_group v s
      rw [encode]
      split
      · next hlast =>
          have hw128 : w < 128 := by omega
          obtain ⟨htop, hlow⟩ := last_byte hw128
          have hvs : v < 2 ^ (s + 7) := by
            rw [hdiv] at hlast
            exact (Nat.div_eq_zero_iff_lt (Nat.two_pow_pos _)).mp hlast
          rw [hw, Nat.mod_eq_of_lt hw128, Nat.mod_eq_of_lt hvs] at hgroup
          rw [List.cons_append, List.nil_append, decode]
          simp only [htop, if_true, hlow, Nat.mod_eq_of_lt hs, hgroup]
      · next hmore =>
          obtain ⟨htop, hlow⟩ := inner_byte (Nat.mod_lt w (by omega : 128 > 0))
          have hs' : s + 7 < 32 := by
            by_contra hge
            have hle : 2 ^ 32 ≤ 2 ^ (s + 7) := Nat.pow_le_pow_right (by omega) (by omega)
            exact hmore (by rw [hdiv, Nat.div_eq_of_lt (by omega)])
          rw [hw] at hgroup
          rw [List.cons_append, decode]
          simp only [htop, if_false, hlow, Nat.mod_eq_of_lt hs, hgroup]
          exact ih (w / 128) (by omega) hs' hdiv.symm

/-- **A number below `2 ^ 32` is decoded from its code.** -/
theorem decode_encode {v : ℕ} (hv : v < 2 ^ 32) (rest : List (BitVec 8)) :
    decode 0 0 (encode v ++ rest) = some (BitVec.ofNat 32 v, rest) := by
  have := decode_encode_of_shift hv (s := 0) (by omega) rest
  simpa [Nat.mod_one] using this

end RtBoot.Leb128
