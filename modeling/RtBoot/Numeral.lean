import Mathlib.Data.Nat.Digits.Lemmas
import Mathlib.Tactic.Common

/-!
# Numbers in a Base

Writing a number with the digits of a base and reading it back. Digits are numbers below the
base, least significant first (`lowDigits`); a digit function makes characters of them and a
value function makes numbers of characters. Reading goes on as long as a character has a value
below the base, and its result is a machine word, so that a number too large for the word is
read modulo the size of the word.

## Main results

* `foldl_lowDigits`: the number is the value of its digits.
* `readNumeral_numeral`: a number written and followed by something that is not a digit is
  read back.
-/

namespace RtBoot

variable {α : Type*}

/-- The digits of `n`, least significant first. Zero has one digit. -/
def lowDigits (b n : ℕ) : List ℕ :=
  if n = 0 then [0] else Nat.digits b n

/-- The most significant digit. -/
def leadingDigit (b n : ℕ) : ℕ :=
  (lowDigits b n).getLastD 0

/-- The digits of `n` as characters, most significant first. -/
def numeral (b : ℕ) (digit : ℕ → α) (n : ℕ) : List α :=
  ((lowDigits b n).map digit).reverse

/-- Read on from `acc` as long as a character has a value below the base: the word read and
the characters left. -/
def readNumeral {w : ℕ} (b : ℕ) (value : α → Option ℕ) : BitVec w → List α → BitVec w × List α
  | acc, [] => (acc, [])
  | acc, c :: cs =>
      match value c with
      | some d => if d < b then readNumeral b value (acc * b + d) cs else (acc, c :: cs)
      | none => (acc, c :: cs)

section
variable {b n : ℕ}

theorem lowDigits_ne_nil : lowDigits b n ≠ [] := by
  unfold lowDigits
  split
  · exact List.cons_ne_nil _ _
  · next hn => exact Nat.digits_ne_nil_iff_ne_zero.mpr hn

theorem lt_of_mem_lowDigits (hb : 1 < b) {d : ℕ} (h : d ∈ lowDigits b n) : d < b := by
  unfold lowDigits at h
  split at h
  · rw [List.mem_singleton.mp h]
    omega
  · exact Nat.digits_lt_base hb h

theorem leadingDigit_lt (hb : 1 < b) : leadingDigit b n < b := by
  rw [leadingDigit, List.getLastD_eq_getLast?, List.getLast?_eq_some_getLast lowDigits_ne_nil]
  exact lt_of_mem_lowDigits hb (List.getLast_mem lowDigits_ne_nil)

/-- **The number is the value of its digits**, the most significant one first. -/
theorem foldl_lowDigits : (lowDigits b n).reverse.foldl (fun acc d => acc * b + d) 0 = n := by
  have hvalue : Nat.ofDigits b (lowDigits b n) = n := by
    unfold lowDigits
    split
    · next hn => rw [hn, Nat.ofDigits_singleton]
    · exact Nat.ofDigits_digits b n
  have hhorner : (fun d acc : ℕ => acc * b + d) = fun d acc => (d : ℕ) + b * acc := by
    funext d acc
    rw [Nat.add_comm, Nat.mul_comm]
  rw [List.foldl_reverse, hhorner]
  rwa [Nat.ofDigits_eq_foldr] at hvalue

theorem numeral_ne_nil (digit : ℕ → α) : numeral b digit n ≠ [] := by
  unfold numeral
  rw [ne_eq, List.reverse_eq_nil_iff, List.map_eq_nil_iff]
  exact lowDigits_ne_nil

/-- Every character of a numeral is that of a digit. -/
theorem mem_numeral (hb : 1 < b) {digit : ℕ → α} {c : α} (h : c ∈ numeral b digit n) :
    ∃ d < b, digit d = c := by
  obtain ⟨d, hd, rfl⟩ := List.mem_map.mp (List.mem_reverse.mp h)
  exact ⟨d, lt_of_mem_lowDigits hb hd, rfl⟩

/-- A numeral begins with its leading digit. -/
theorem numeral_eq_cons (digit : ℕ → α) :
    ∃ cs, numeral b digit n = digit (leadingDigit b n) :: cs := by
  obtain ⟨ds, d, hds⟩ := (List.eq_nil_or_concat (lowDigits b n)).resolve_left lowDigits_ne_nil
  refine ⟨(ds.map digit).reverse, ?_⟩
  rw [numeral, leadingDigit, hds, List.concat_eq_append, List.map_append, List.reverse_append,
    List.getLastD_concat]
  rfl

end

/-! ### Reading -/

section
variable {w b : ℕ} {value : α → Option ℕ} {digit : ℕ → α}

/-- Reading the characters of some digits, then going on. -/
theorem readNumeral_map (hdigit : ∀ d < b, value (digit d) = some d) {ds : List ℕ}
    (hds : ∀ d ∈ ds, d < b) (acc : ℕ) (rest : List α) :
    readNumeral b value (BitVec.ofNat w acc) (ds.map digit ++ rest) =
      readNumeral b value (BitVec.ofNat w (ds.foldl (fun acc d => acc * b + d) acc)) rest := by
  induction ds generalizing acc with
  | nil => rfl
  | cons d ds ih =>
      have hd := hds d List.mem_cons_self
      rw [List.map_cons, List.cons_append, readNumeral, hdigit d hd]
      dsimp only
      rw [if_pos hd, List.foldl_cons, ← ih fun e he => hds e (List.mem_cons_of_mem d he),
        BitVec.ofNat_add, BitVec.ofNat_mul]
      rfl

/-- **A number is read back**, when what follows is not a digit. -/
theorem readNumeral_numeral (hb : 1 < b) (hdigit : ∀ d < b, value (digit d) = some d) (n : ℕ)
    {rest : List α} (hrest : ∀ c ∈ rest.head?, value c = none) :
    readNumeral b value (0 : BitVec w) (numeral b digit n ++ rest) = (BitVec.ofNat w n, rest) := by
  have hds : ∀ d ∈ (lowDigits b n).reverse, d < b := fun d hd =>
    lt_of_mem_lowDigits hb (List.mem_reverse.mp hd)
  rw [numeral, ← List.map_reverse, show (0 : BitVec w) = BitVec.ofNat w 0 from rfl,
    readNumeral_map hdigit hds, foldl_lowDigits]
  cases rest with
  | nil => rfl
  | cons c rest => rw [readNumeral, hrest c rfl]

end

end RtBoot
