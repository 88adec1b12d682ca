import Mathlib.Data.List.Infix
import Mathlib.Tactic.Common

/-!
# Searching Bytes

Three ways of looking for a pattern in a block of bytes, as C code has them: whether the
block begins with the pattern up to the case of letters (`caseBegins`), where the pattern
occurs first (`memstr`), and where a byte occurs last (`memrchr`). The block is followed by
a NUL in memory, and no pattern contains one, so a comparison that reaches the end of the
block stops there.

## Main results

* `memstr_eq_some_iff`, `memstr_eq_none_iff`: `memstr` finds the first occurrence, and fails
  exactly when there is none.
* `memstr_append`: a pattern whose first byte does not occur before it is found.
* `memrchr_eq_some_iff`, `memrchr_eq_none_iff`: what the backward search examines; the first
  byte of the block is not part of it.
-/

namespace RtBoot

/-! ### Comparison up to case -/

/-- A capital letter becomes the small one; every other byte stays. -/
def toLower (b : UInt8) : UInt8 :=
  if 65 ≤ b ∧ b ≤ 90 then b + 32 else b

/-- The block begins with the pattern, up to the case of letters. -/
def caseBegins : List UInt8 → List UInt8 → Bool
  | _, [] => true
  | [], _ :: _ => false
  | b :: w, m :: p => toLower b == toLower m && caseBegins w p

@[simp] theorem caseBegins_nil (w : List UInt8) : caseBegins w [] = true := by
  cases w <;> rfl

@[simp] theorem caseBegins_cons (b m : UInt8) (w p : List UInt8) :
    caseBegins (b :: w) (m :: p) = true ↔ toLower b = toLower m ∧ caseBegins w p = true := by
  simp [caseBegins]

theorem caseBegins_append (w p q : List UInt8) :
    caseBegins w (p ++ q) = (caseBegins w p && caseBegins (w.drop p.length) q) := by
  induction p generalizing w with
  | nil => simp
  | cons m p ih =>
      cases w with
      | nil => rfl
      | cons b w => simp [caseBegins, ih, Bool.and_assoc]

theorem caseBegins_self_append (p r : List UInt8) : caseBegins (p ++ r) p = true := by
  induction p with
  | nil => exact caseBegins_nil _
  | cons m p ih => exact (caseBegins_cons _ _ _ _).mpr ⟨rfl, ih⟩

variable {p w needle : List UInt8} {i : ℕ} {c : UInt8}

theorem length_le_of_caseBegins (h : caseBegins w p = true) :
    p.length ≤ w.length := by
  induction p generalizing w with
  | nil => exact Nat.zero_le _
  | cons m p ih =>
      cases w with
      | nil => cases h
      | cons b w => exact Nat.succ_le_succ (ih ((caseBegins_cons _ _ _ _).mp h).2)

/-- A byte that is no letter is told apart from every other byte. -/
theorem toLower_eq_of_lt {b m : UInt8} (hm : m < 65) : toLower b = toLower m ↔ b = m := by
  have hm' : toLower m = m := if_neg fun h => absurd h.1 (UInt8.not_le.mpr hm)
  rw [hm', toLower]
  by_cases hb : 65 ≤ b ∧ b ≤ 90
  · have h65 : UInt8.toNat 65 = 65 := rfl
    have h90 : UInt8.toNat 90 = 90 := rfl
    have h32 : UInt8.toNat 32 = 32 := rfl
    rw [if_pos hb]
    simp only [UInt8.le_iff_toNat_le, UInt8.lt_iff_toNat_lt, ← UInt8.toNat_inj,
      UInt8.toNat_add] at *
    omega
  · rw [if_neg hb]

/-! ### The first occurrence of a pattern -/

/-- `memstr`: the position of the first occurrence of `needle`. -/
def memstr (needle : List UInt8) : List UInt8 → Option ℕ
  | [] => if needle = [] then some 0 else none
  | b :: w => if needle <+: b :: w then some 0 else (memstr needle w).map (· + 1)

/-- `memstr` finds the first occurrence. -/
theorem memstr_eq_some_iff :
    memstr needle w = some i ↔
      i ≤ w.length ∧ needle <+: w.drop i ∧ ∀ j < i, ¬ needle <+: w.drop j := by
  induction w generalizing i with
  | nil =>
      by_cases h : needle = []
      · simp only [memstr, h, if_true, Option.some.injEq, List.length_nil, Nat.le_zero_eq,
          List.drop_nil, List.nil_prefix, not_true_eq_false, true_and]
        exact ⟨fun h0 => ⟨h0.symm, fun j hj => by omega⟩, fun h0 => h0.1.symm⟩
      · simp [memstr, h]
  | cons b w ih =>
      by_cases h : needle <+: b :: w
      · simp only [memstr, h, if_true, Option.some.injEq]
        constructor
        · rintro rfl
          exact ⟨Nat.zero_le _, h, fun j hj => absurd hj (Nat.not_lt_zero j)⟩
        · rintro ⟨-, -, hfirst⟩
          by_contra hi
          exact hfirst 0 (by omega) h
      · simp only [memstr, h, if_false, Option.map_eq_some_iff, ih]
        constructor
        · rintro ⟨i, ⟨hlen, hpre, hfirst⟩, rfl⟩
          refine ⟨Nat.succ_le_succ hlen, hpre, ?_⟩
          intro j hj
          cases j with
          | zero => exact h
          | succ j => exact hfirst j (by omega)
        · rintro ⟨hlen, hpre, hfirst⟩
          cases i with
          | zero => exact absurd hpre h
          | succ i =>
              exact ⟨i, ⟨Nat.le_of_succ_le_succ hlen, hpre,
                fun j hj => hfirst (j + 1) (by omega)⟩, rfl⟩

theorem infix_iff_prefix_drop : p <:+: w ↔ ∃ i ≤ w.length, p <+: w.drop i := by
  constructor
  · rintro ⟨x, y, rfl⟩
    refine ⟨x.length, by simp, y, ?_⟩
    rw [List.append_assoc, List.drop_left]
  · rintro ⟨i, -, hpre⟩
    exact hpre.isInfix.trans (List.drop_suffix i w).isInfix

/-- `memstr` fails where there is no occurrence. -/
theorem memstr_eq_none_iff : memstr needle w = none ↔ ¬ needle <:+: w := by
  constructor
  · intro hnone hinf
    induction w with
    | nil => simp [memstr, List.infix_nil.mp hinf] at hnone
    | cons b w ih =>
        rw [memstr] at hnone
        split_ifs at hnone with h
        rcases List.infix_cons_iff.mp hinf with hpre | hinf
        · exact h hpre
        · exact ih (Option.map_eq_none_iff.mp hnone) hinf
  · intro hno
    by_contra hsome
    obtain ⟨i, hi⟩ := Option.ne_none_iff_exists'.mp hsome
    obtain ⟨hlen, hpre, -⟩ := memstr_eq_some_iff.mp hi
    exact hno (infix_iff_prefix_drop.mpr ⟨i, hlen, hpre⟩)

theorem memstr_eq_none_of_length (h : w.length < needle.length) :
    memstr needle w = none :=
  memstr_eq_none_iff.mpr fun hinf => absurd hinf.length_le (by omega)

theorem getElem?_of_prefix_drop (h : c :: p <+: w.drop i) : w[i]? = some c := by
  obtain ⟨r, hr⟩ := h
  rw [← List.head?_drop, ← hr]
  rfl

/-- A pattern does not begin among bytes that are not its first byte. -/
theorem le_of_prefix_drop_append {x y : List UInt8} (hx : c ∉ x)
    (h : c :: p <+: (x ++ y).drop i) : x.length ≤ i := by
  by_contra hi
  have hc := getElem?_of_prefix_drop h
  rw [List.getElem?_append_left (by omega)] at hc
  exact hx (List.mem_of_getElem? hc)

/-- A pattern whose first byte does not occur before it is found there. -/
theorem memstr_append {x : List UInt8} (hx : c ∉ x) (r : List UInt8) :
    memstr (c :: p) (x ++ (c :: p ++ r)) = some x.length := by
  refine memstr_eq_some_iff.mpr ⟨by simp, ?_, fun j hj h => ?_⟩
  · rw [List.drop_left]
    exact List.prefix_append _ _
  · exact absurd (le_of_prefix_drop_append hx h) (by omega)

/-! ### The last occurrence of a byte -/

/-- The byte at a position of a block that is followed by a NUL. -/
def byteOf (w : List UInt8) (i : ℕ) : UInt8 :=
  w.getD i 0

/-- The backward search from position `i` down; it ends before position `0`. -/
def memrchrFrom (w : List UInt8) (c : UInt8) : ℕ → Option ℕ
  | 0 => none
  | i + 1 => if byteOf w (i + 1) = c then some (i + 1) else memrchrFrom w c i

/-- `memrchr`: the last position of `c`, the search starting at the byte behind the block. -/
def memrchr (w : List UInt8) (c : UInt8) : Option ℕ :=
  memrchrFrom w c w.length

theorem memrchrFrom_eq_none_iff {n : ℕ} :
    memrchrFrom w c n = none ↔ ∀ i, 0 < i → i ≤ n → byteOf w i ≠ c := by
  induction n with
  | zero => exact ⟨fun _ i h0 hi => by omega, fun _ => rfl⟩
  | succ n ih =>
      by_cases h : byteOf w (n + 1) = c
      · simp only [memrchrFrom, h, if_true, reduceCtorEq, false_iff]
        intro hall
        exact hall (n + 1) (by omega) (le_refl _) h
      · simp only [memrchrFrom, h, if_false, ih]
        refine ⟨?_, fun hall i h0 hi => hall i h0 (by omega)⟩
        intro hall i h0 hi
        rcases Nat.lt_or_eq_of_le hi with hlt | rfl
        · exact hall i h0 (by omega)
        · exact h

theorem memrchrFrom_eq_some_iff {n : ℕ} :
    memrchrFrom w c n = some i ↔
      0 < i ∧ i ≤ n ∧ byteOf w i = c ∧ ∀ j, i < j → j ≤ n → byteOf w j ≠ c := by
  induction n with
  | zero =>
      constructor
      · intro h
        cases h
      · rintro ⟨h0, hi, -⟩
        omega
  | succ n ih =>
      by_cases h : byteOf w (n + 1) = c
      · simp only [memrchrFrom, h, if_true, Option.some.injEq]
        constructor
        · rintro rfl
          exact ⟨Nat.succ_pos n, le_refl _, h, fun j h1 h2 => by omega⟩
        · rintro ⟨-, hi, -, hlast⟩
          by_contra hne
          exact hlast (n + 1) (by omega) (le_refl _) h
      · simp only [memrchrFrom, h, if_false, ih]
        constructor
        · rintro ⟨h0, hi, hb, hlast⟩
          refine ⟨h0, by omega, hb, ?_⟩
          intro j h1 h2
          rcases Nat.lt_or_eq_of_le h2 with hlt | rfl
          · exact hlast j h1 (by omega)
          · exact h
        · rintro ⟨h0, hi, hb, hlast⟩
          have hne : i ≠ n + 1 := fun heq => h (heq ▸ hb)
          exact ⟨h0, by omega, hb, fun j h1 h2 => hlast j h1 (by omega)⟩

/-- For a byte other than NUL, `memrchr` fails exactly when the byte does not occur behind the
first position. -/
theorem memrchr_eq_none_iff (hc : c ≠ 0) :
    memrchr w c = none ↔ ∀ i, 0 < i → w[i]? ≠ some c := by
  rw [memrchr, memrchrFrom_eq_none_iff]
  constructor
  · intro h i h0 hi
    have hlt : i < w.length := (List.getElem?_eq_some_iff.mp hi).1
    exact h i h0 hlt.le (by rw [byteOf, List.getD_eq_getElem?_getD, hi]; rfl)
  · intro h i h0 _ hi
    rw [byteOf, List.getD_eq_getElem?_getD] at hi
    cases hget : w[i]? with
    | none => exact hc (by rw [← hi, hget]; rfl)
    | some b => exact h i h0 (by rw [hget, ← hi, hget]; rfl)

/-- For a byte other than NUL, `memrchr` finds its last position, which is never the first
byte of the block. -/
theorem memrchr_eq_some_iff (hc : c ≠ 0) :
    memrchr w c = some i ↔ 0 < i ∧ w[i]? = some c ∧ ∀ j, i < j → w[j]? ≠ some c := by
  have hbyte : ∀ j, byteOf w j = c ↔ w[j]? = some c := by
    intro j
    rw [byteOf, List.getD_eq_getElem?_getD]
    cases w[j]? with
    | none => simpa using hc.symm
    | some b => simp
  rw [memrchr, memrchrFrom_eq_some_iff]
  constructor
  · rintro ⟨h0, -, hb, hlast⟩
    refine ⟨h0, (hbyte i).mp hb, ?_⟩
    intro j hj hget
    have hlt : j < w.length := (List.getElem?_eq_some_iff.mp hget).1
    exact hlast j hj hlt.le ((hbyte j).mpr hget)
  · rintro ⟨h0, hget, hlast⟩
    have hlt : i < w.length := (List.getElem?_eq_some_iff.mp hget).1
    exact ⟨h0, hlt.le, (hbyte i).mpr hget, fun j hj _ hb => hlast j hj ((hbyte j).mp hb)⟩

end RtBoot
