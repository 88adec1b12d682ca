import Mathlib.Data.Nat.Count
import RtBoot.Qsort

/-!
# The Partition of `quicksort`

What the loops of `quicksort` do to the part of the array from `l` to `r`, whose pivot is its
last element. While the indices run towards each other the part looks like this, with the
positions `i₁` and `p₁` one above the indices `i` and `p` of the code:

  `[l, p₁)` equal, `[p₁, i₁)` below, `[i₁, j)` not seen, `[j, q)` above, `[q, r)` equal.

In the end the elements collected on both sides are moved to the middle, all but the
innermost one of each side. For this the code runs an index up to `p`, and when the part
begins at the first element of the array and nothing was collected on the left, `p` is one
below zero, that is `2 ^ 32 - 1`.

Whether something is collected on the left can be read off the part as the call finds it. The
exchanges pair the elements not below the pivot, counted from the left, with those not above
it, counted from the right, as long as the former is left of the latter; what counts is
whether some such pair has an element equal to the pivot on the right (`ExchangePair`).

## Main results

* `partLoop_spec`: the partitioning loop, from its invariant.
* `partition_spec`: the whole partition, when `p` does not end below zero.
* `partition_below_zero`: when it does, an element outside the array is accessed.
-/

namespace RtBoot

/-! ### Pairs that are exchanged -/

/-- The elements not below the pivot at the positions from `l` up to `x`. -/
def notBelow {α : Type*} (cmp : α → α → ℤ) (f : ℕ → α) (l r x : ℕ) : ℕ :=
  Nat.count (fun k => l ≤ k ∧ 0 ≤ cmp (f k) (f r)) x

/-- The elements not above the pivot at the positions up to `y`. -/
def notAbove {α : Type*} (cmp : α → α → ℤ) (f : ℕ → α) (r y : ℕ) : ℕ :=
  Nat.count (fun k => cmp (f k) (f r) ≤ 0) y

/-- In the part from `l` to `r` the element at `x` is not below the pivot, the one at `y`
behind it equals the pivot, and as many elements left of `x` are not below the pivot as
elements right of `y` are not above it. -/
structure ExchangePair {α : Type*} (cmp : α → α → ℤ) (f : ℕ → α) (l r x y : ℕ) : Prop where
  left : l ≤ x
  lt : x < y
  right : y < r
  notBelow_pivot : 0 ≤ cmp (f x) (f r)
  equal_pivot : cmp (f y) (f r) = 0
  rank : notBelow cmp f l r x + notAbove cmp f r (y + 1) = notAbove cmp f r r

/-- Counting goes on over positions that do not count. -/
theorem count_eq_of_forall_not {P : ℕ → Prop} [DecidablePred P] {a b : ℕ} (hab : a ≤ b)
    (h : ∀ k, a ≤ k → k < b → ¬ P k) : Nat.count P b = Nat.count P a := by
  induction b, hab using Nat.le_induction with
  | base => rfl
  | succ b hab ih =>
      rw [Nat.count_succ, if_neg (h b hab (Nat.lt_succ_self b)), Nat.add_zero]
      exact ih fun k hak hkb => h k hak (by omega)

variable {i j' : ℕ}

section
variable {α : Type*} (cmp : α → α → ℤ) (f : ℕ → α) (l r : ℕ)

theorem notBelow_mono {x y : ℕ} (h : x ≤ y) : notBelow cmp f l r x ≤ notBelow cmp f l r y :=
  Nat.count_monotone _ h

theorem notAbove_mono {x y : ℕ} (h : x ≤ y) : notAbove cmp f r x ≤ notAbove cmp f r y :=
  Nat.count_monotone _ h

variable {cmp f l r}

/-- The next element not below the pivot, `i`, counts. -/
theorem notBelow_next {i₁ : ℕ} (hl : l ≤ i₁) (hi : i₁ ≤ i)
    (hless : ∀ k, i₁ ≤ k → k < i → cmp (f k) (f r) < 0) (hge : 0 ≤ cmp (f i) (f r)) :
    notBelow cmp f l r i = notBelow cmp f l r i₁ ∧
      notBelow cmp f l r (i + 1) = notBelow cmp f l r i₁ + 1 := by
  have hskip : notBelow cmp f l r i = notBelow cmp f l r i₁ := by
    refine count_eq_of_forall_not hi ?_
    intro k hik hki hk
    have := hless k hik hki
    omega
  refine ⟨hskip, ?_⟩
  rw [← hskip]
  unfold notBelow
  rw [Nat.count_succ, if_pos ⟨by omega, hge⟩]

/-- The next element not above the pivot from the right, `j'`, counts. -/
theorem notAbove_next {j : ℕ} (hj : j' < j)
    (hgreater : ∀ k, j' < k → k < j → 0 < cmp (f k) (f r)) (hle : cmp (f j') (f r) ≤ 0) :
    notAbove cmp f r j = notAbove cmp f r (j' + 1) ∧
      notAbove cmp f r (j' + 1) = notAbove cmp f r j' + 1 := by
  constructor
  · refine count_eq_of_forall_not (Nat.succ_le_of_lt hj) ?_
    intro k hjk hkj hk
    have := hgreater k hjk hkj
    omega
  · unfold notAbove
    rw [Nat.count_succ, if_pos hle]

theorem notBelow_lt {x i₁ : ℕ} (hl : l ≤ x) (hx : 0 ≤ cmp (f x) (f r)) (hlt : x < i₁) :
    notBelow cmp f l r x < notBelow cmp f l r i₁ :=
  Nat.count_strict_mono ⟨hl, hx⟩ hlt

theorem notAbove_succ {y : ℕ} (hy : cmp (f y) (f r) ≤ 0) :
    notAbove cmp f r (y + 1) = notAbove cmp f r y + 1 := by
  unfold notAbove
  rw [Nat.count_succ, if_pos hy]

end

/-! ### The two scans -/

section Loops
variable {σ : Type} {ops : ArrayOps σ} {α : Type*} {cmp : α → α → ℤ} {n fuel p₁ : ℕ}
  (V : ArrayView ops cmp n) {s : Cursors σ}

/-- The upward scan stops at the next element not below the pivot, or at the pivot. -/
theorem scanUp_spec (hn : n < 4294967295) {arr : σ} (hv : V.Valid arr) {r i₁ : ℕ}
    (hr : r < n) (hi : i₁ ≤ r) (hfuel : r - i₁ < fuel) :
    ∃ i, scanUp ops arr r fuel (pred32 i₁) = some i ∧ i₁ ≤ i ∧ i ≤ r ∧
      (∀ k, i₁ ≤ k → k < i → cmp (V.elem arr k) (V.elem arr r) < 0) ∧
      (i < r → 0 ≤ cmp (V.elem arr i) (V.elem arr r)) := by
  induction fuel generalizing i₁ with
  | zero => omega
  | succ fuel ih =>
      have hnone : ∀ k, i₁ ≤ k → k < i₁ → cmp (V.elem arr k) (V.elem arr r) < 0 :=
        fun k hik hki => absurd hki (Nat.not_lt_of_le hik)
      rw [scanUp, succ32_pred32 (by omega)]
      by_cases hend : i₁ = r
      · rw [if_neg (not_not_intro hend)]
        exact ⟨i₁, rfl, Nat.le_refl _, hi, hnone, fun hlt => absurd hend (by omega)⟩
      · rw [if_pos hend, V.compar_eq hv (by omega) hr, Option.bind_eq_bind, Option.bind_some]
        by_cases hless : cmp (V.elem arr i₁) (V.elem arr r) < 0
        · obtain ⟨i, hscan, hle, hir, hbelow, hge⟩ := ih (show i₁ + 1 ≤ r by omega) (by omega)
          rw [pred32_of_pos (by omega) (by omega), Nat.add_sub_cancel] at hscan
          rw [if_pos hless]
          refine ⟨i, hscan, by omega, hir, fun k hik hki => ?_, hge⟩
          rcases Nat.eq_or_lt_of_le hik with rfl | hlt
          · exact hless
          · exact hbelow k hlt hki
        · rw [if_neg hless]
          exact ⟨i₁, rfl, Nat.le_refl _, hi, hnone, fun _ => Int.not_lt.mp hless⟩

/-- The downward scan stops at the next element not above the pivot, or at the start of the
part. -/
theorem scanDown_spec (hcmp : PreorderCmp cmp) (hn : n < 4294967295) {arr : σ}
    (hv : V.Valid arr) {l r j : ℕ} (hr : r < n) (hlj : l < j) (hjr : j ≤ r) (hfuel : j - l ≤ fuel) :
    ∃ j', scanDown ops arr l r fuel j = some j' ∧ l ≤ j' ∧ j' < j ∧
      (∀ k, j' < k → k < j → 0 < cmp (V.elem arr k) (V.elem arr r)) ∧
      (l < j' → cmp (V.elem arr j') (V.elem arr r) ≤ 0) := by
  induction fuel generalizing j with
  | zero => omega
  | succ fuel ih =>
      have hnone : ∀ k, j - 1 < k → k < j → 0 < cmp (V.elem arr k) (V.elem arr r) :=
        fun k hjk hkj => absurd hkj (by omega)
      rw [scanDown, pred32_of_pos (by omega) (by omega), V.compar_eq hv hr (by omega),
        Option.bind_eq_bind, Option.bind_some]
      by_cases hgreater : cmp (V.elem arr r) (V.elem arr (j - 1)) < 0
      · have habove := (hcmp.opposite _ _).mp hgreater
        rw [if_pos hgreater]
        by_cases hend : j - 1 = l
        · rw [if_pos hend]
          exact ⟨j - 1, rfl, by omega, by omega, hnone, fun hlt => absurd hend (by omega)⟩
        · rw [if_neg hend]
          obtain ⟨j', hscan, hle, hlt, hbetween, hstop⟩ := ih (j := j - 1) (by omega) (by omega)
            (by omega)
          refine ⟨j', hscan, hle, by omega, fun k hjk hkj => ?_, hstop⟩
          by_cases hk : k = j - 1
          · rwa [hk]
          · exact hbetween k hjk (by omega)
      · rw [if_neg hgreater]
        refine ⟨j - 1, rfl, by omega, by omega, hnone, fun _ => ?_⟩
        exact hcmp.le_comm.mpr (Int.not_lt.mp hgreater)

/-! ### Collecting elements equal to the pivot -/

/-- The element at `i`, not above the pivot, joins those equal to it or those below it. -/
theorem keepLeft_spec (hn : n < 4294967295) (hv : V.Valid s.arr) {l r : ℕ}
    {v : α} (hr : r < n) (hpivot : V.elem s.arr r = v) (hp : s.p = pred32 p₁) (hl : l ≤ p₁)
    (hpi : p₁ ≤ s.i) (hi : s.i < r) (heq : ∀ k, l ≤ k → k < p₁ → cmp (V.elem s.arr k) v = 0)
    (hless : ∀ k, p₁ ≤ k → k < s.i → cmp (V.elem s.arr k) v < 0)
    (hle : cmp (V.elem s.arr s.i) v ≤ 0) :
    ∃ arr' p₁', keepLeft ops r s = some { s with arr := arr', p := pred32 p₁' } ∧
      V.Valid arr' ∧ Rearranged l (s.i + 1) (V.elem s.arr) (V.elem arr') ∧
      p₁' ≤ s.i + 1 ∧ l ≤ p₁' ∧
      (∀ k, l ≤ k → k < p₁' → cmp (V.elem arr' k) v = 0) ∧
      (∀ k, p₁' ≤ k → k < s.i + 1 → cmp (V.elem arr' k) v < 0) ∧
      (l < p₁' ↔ l < p₁ ∨ cmp (V.elem s.arr s.i) v = 0) := by
  rw [keepLeft, V.compar_eq hv (by omega) hr, hpivot, Option.bind_eq_bind, Option.bind_some]
  by_cases hzero : cmp (V.elem s.arr s.i) v = 0
  · obtain ⟨arr', hexch, hv', helem⟩ := V.exch_eq hv (by omega : p₁ < n) (by omega : s.i < n)
    have hrearr : Rearranged l (s.i + 1) (V.elem s.arr) (V.elem arr') := by
      rw [helem]
      exact rearranged_swap _ (by omega) (by omega)
    refine ⟨arr', p₁ + 1, ?_, hv', hrearr, by omega, by omega, ?_, ?_, ?_⟩
    · rw [if_pos hzero, hp, succ32_pred32 (by omega), hexch, pred32_of_pos (by omega) (by omega)]
      rfl
    · intro k hlk hkp
      rw [helem, Function.comp_apply]
      rcases Nat.lt_succ_iff_lt_or_eq.mp hkp with hlt | rfl
      · rw [Equiv.swap_apply_of_ne_of_ne (by omega) (by omega)]
        exact heq k hlk hlt
      · rw [Equiv.swap_apply_left]
        exact hzero
    · intro k hpk hki
      rw [helem, Function.comp_apply]
      by_cases hk : k = s.i
      · rw [hk, Equiv.swap_apply_right]
        exact hless p₁ (Nat.le_refl _) (by omega)
      · rw [Equiv.swap_apply_of_ne_of_ne (by omega) hk]
        exact hless k (by omega) (by omega)
    · simp only [hzero, or_true, iff_true]
      omega
  · refine ⟨s.arr, p₁, ?_, hv, Rearranged.refl _ _ _, by omega, hl, heq, ?_, ?_⟩
    · rw [if_neg hzero, ← hp]
    · intro k hpk hki
      by_cases hk : k = s.i
      · rw [hk]
        omega
      · exact hless k hpk (by omega)
    · simp only [hzero, or_false]

/-- The element at `j`, not below the pivot, likewise on the other side. -/
theorem keepRight_spec (hcmp : PreorderCmp cmp) (hn : n < 4294967295)
    (hv : V.Valid s.arr) {r : ℕ} {v : α} (hr : r < n) (hpivot : V.elem s.arr r = v)
    (hjq : s.j < s.q) (hq : s.q ≤ r)
    (hgreater : ∀ k, s.j < k → k < s.q → 0 < cmp (V.elem s.arr k) v)
    (heq : ∀ k, s.q ≤ k → k < r → cmp (V.elem s.arr k) v = 0) (hge : 0 ≤ cmp (V.elem s.arr s.j) v) :
    ∃ arr' q', keepRight ops r s = some { s with arr := arr', q := q' } ∧
      V.Valid arr' ∧ Rearranged s.j r (V.elem s.arr) (V.elem arr') ∧ s.j ≤ q' ∧ q' ≤ r ∧
      (∀ k, s.j ≤ k → k < q' → 0 < cmp (V.elem arr' k) v) ∧
      (∀ k, q' ≤ k → k < r → cmp (V.elem arr' k) v = 0) := by
  rw [keepRight, V.compar_eq hv hr (by omega), hpivot, Option.bind_eq_bind, Option.bind_some]
  by_cases hzero : cmp v (V.elem s.arr s.j) = 0
  · obtain ⟨arr', hexch, hv', helem⟩ := V.exch_eq hv (by omega : s.j < n)
      (by omega : s.q - 1 < n)
    have hrearr : Rearranged s.j r (V.elem s.arr) (V.elem arr') := by
      rw [helem]
      exact rearranged_swap _ (by omega) (by omega)
    refine ⟨arr', s.q - 1, ?_, hv', hrearr, by omega, by omega, ?_, ?_⟩
    · rw [if_pos hzero, pred32_of_pos (by omega) (by omega), hexch]
      rfl
    · intro k hjk hkq
      rw [helem, Function.comp_apply]
      by_cases hk : k = s.j
      · rw [hk, Equiv.swap_apply_left]
        exact hgreater _ (by omega) (by omega)
      · rw [Equiv.swap_apply_of_ne_of_ne hk (by omega)]
        exact hgreater k (by omega) (by omega)
    · intro k hqk hkr
      rw [helem, Function.comp_apply]
      by_cases hk : k = s.q - 1
      · rw [hk, Equiv.swap_apply_right]
        exact hcmp.eq_comm.mp hzero
      · rw [Equiv.swap_apply_of_ne_of_ne (by omega) hk]
        exact heq k (by omega) hkr
  · refine ⟨s.arr, s.q, if_neg hzero, hv, Rearranged.refl _ _ _, by omega, hq, ?_, heq⟩
    intro k hjk hkq
    by_cases hk : k = s.j
    · have hne : cmp (V.elem s.arr s.j) v ≠ 0 := fun h => hzero (hcmp.eq_comm.mp h)
      rw [hk]
      omega
    · exact hgreater k (by omega) hkq

/-! ### The partitioning loop -/

/-- The part at the head of the loop; `f₀` is the array as the call found it. -/
structure PartInv (f₀ : ℕ → α) (l r : ℕ) (s : Cursors σ) (i₁ p₁ : ℕ) : Prop where
  valid : V.Valid s.arr
  i_eq : s.i = pred32 i₁
  p_eq : s.p = pred32 p₁
  l_le : l ≤ p₁
  p_le : p₁ ≤ i₁
  i_le : i₁ ≤ s.j
  l_lt : l < s.j
  j_le : s.j ≤ s.q
  q_le : s.q ≤ r
  equalLeft : ∀ k, l ≤ k → k < p₁ → cmp (V.elem s.arr k) (f₀ r) = 0
  below : ∀ k, p₁ ≤ k → k < i₁ → cmp (V.elem s.arr k) (f₀ r) < 0
  above : ∀ k, s.j ≤ k → k < s.q → 0 < cmp (V.elem s.arr k) (f₀ r)
  equalRight : ∀ k, s.q ≤ k → k < r → cmp (V.elem s.arr k) (f₀ r) = 0
  rearranged : Rearranged l r f₀ (V.elem s.arr)
  unseen : ∀ k, i₁ ≤ k → k < s.j → V.elem s.arr k = f₀ k
  rank : notBelow cmp f₀ l r i₁ + notAbove cmp f₀ r s.j = notAbove cmp f₀ r r
  found : l < p₁ ↔ ∃ x y, x < i₁ ∧ s.j ≤ y ∧ ExchangePair cmp f₀ l r x y

/-- Where the scans stop that go on from `i₁` and `j`. -/
structure Stops (cmp : α → α → ℤ) (f₀ : ℕ → α) (r i₁ j i j' : ℕ) : Prop where
  i_le : i₁ ≤ i
  j_lt : j' < j
  less : ∀ k, i₁ ≤ k → k < i → cmp (f₀ k) (f₀ r) < 0
  greater : ∀ k, j' < k → k < j → 0 < cmp (f₀ k) (f₀ r)
  ge : i < j' → 0 ≤ cmp (f₀ i) (f₀ r)
  le : i < j' → cmp (f₀ j') (f₀ r) ≤ 0

/-- The array `arr` after the exchange of the elements where the scans stopped. -/
structure Exchanged (f₀ : ℕ → α) (l r : ℕ) (s : Cursors σ) (p₁ i j' : ℕ) (arr : σ) : Prop where
  valid : V.Valid arr
  rearranged : Rearranged l r f₀ (V.elem arr)
  at_i : V.elem arr i = f₀ j'
  at_j : V.elem arr j' = f₀ i
  equalLeft : ∀ k, l ≤ k → k < p₁ → cmp (V.elem arr k) (f₀ r) = 0
  below : ∀ k, p₁ ≤ k → k < i → cmp (V.elem arr k) (f₀ r) < 0
  above : ∀ k, j' < k → k < s.q → 0 < cmp (V.elem arr k) (f₀ r)
  equalRight : ∀ k, s.q ≤ k → k < r → cmp (V.elem arr k) (f₀ r) = 0
  unseen : ∀ k, i < k → k < j' → V.elem arr k = f₀ k

/-- The part when the indices have met at `i`. -/
structure PartEnd (f₀ : ℕ → α) (l r : ℕ) (s : Cursors σ) (p₁ : ℕ) : Prop where
  valid : V.Valid s.arr
  p_eq : s.p = pred32 p₁
  l_le : l ≤ p₁
  p_le : p₁ ≤ s.i
  i_le : s.i ≤ s.q
  q_le : s.q ≤ r
  equalLeft : ∀ k, l ≤ k → k < p₁ → cmp (V.elem s.arr k) (f₀ r) = 0
  below : ∀ k, p₁ ≤ k → k < s.i → cmp (V.elem s.arr k) (f₀ r) < 0
  notBelow : ∀ k, s.i ≤ k → k < s.q → 0 ≤ cmp (V.elem s.arr k) (f₀ r)
  equalRight : ∀ k, s.q ≤ k → k < r → cmp (V.elem s.arr k) (f₀ r) = 0
  rearranged : Rearranged l r f₀ (V.elem s.arr)
  found : l < p₁ ↔ ∃ x y, ExchangePair cmp f₀ l r x y

variable {V}

section
variable {f₀ : ℕ → α} {l r : ℕ} {s : Cursors σ} {i₁ p₁ : ℕ}

/-- The pivot stays where it is. -/
theorem PartInv.pivot (h : PartInv V f₀ l r s i₁ p₁) : V.elem s.arr r = f₀ r :=
  h.rearranged.outside (by omega)

/-- At the start nothing has been seen. -/
theorem partInv_start {arr : σ} (hv : V.Valid arr) (hlr : l < r) :
    PartInv V (V.elem arr) l r ⟨arr, pred32 l, r, pred32 l, r⟩ l l where
  valid := hv
  i_eq := rfl
  p_eq := rfl
  l_le := Nat.le_refl _
  p_le := Nat.le_refl _
  i_le := Nat.le_of_lt hlr
  l_lt := hlr
  j_le := Nat.le_refl _
  q_le := Nat.le_refl _
  equalLeft k hlk hkl := absurd hkl (Nat.not_lt_of_le hlk)
  below k hlk hkl := absurd hkl (Nat.not_lt_of_le hlk)
  above k hrk hkr := absurd hkr (Nat.not_lt_of_le hrk)
  equalRight k hrk hkr := absurd hkr (Nat.not_lt_of_le hrk)
  rearranged := Rearranged.refl _ _ _
  unseen _ _ _ := rfl
  rank := by
    have hzero : notBelow cmp (V.elem arr) l r l = 0 := by
      have := count_eq_of_forall_not (P := fun k => l ≤ k ∧ 0 ≤ cmp (V.elem arr k) (V.elem arr r))
        (Nat.zero_le l) fun k _ hkl hk => absurd hk.1 (by omega)
      rwa [Nat.count_zero] at this
    rw [hzero, Nat.zero_add]
  found := by
    constructor
    · intro h
      exact absurd h (Nat.lt_irrefl l)
    · rintro ⟨x, y, hx, -, hpair⟩
      exact absurd hpair.left (by omega)

/-- A pair the loop has met on one side, it has met on the other; a pair it has not met is
no further out than the next two elements the scans find. -/
theorem PartInv.pair_cases (h : PartInv V f₀ l r s i₁ p₁)
    (hstops : Stops cmp f₀ r i₁ s.j i j') {x y : ℕ} (hpair : ExchangePair cmp f₀ l r x y) :
    (x < i₁ ∧ s.j ≤ y) ∨ (i ≤ x ∧ y ≤ j') := by
  have hrank := hpair.rank
  have hinv := h.rank
  have hsucc := notAbove_succ hpair.equal_pivot.le
  by_cases hx : x < i₁
  · left
    refine ⟨hx, ?_⟩
    by_contra hy
    have hlt := notBelow_lt hpair.left hpair.notBelow_pivot hx
    have hyj : y + 1 ≤ s.j := Nat.lt_of_not_le hy
    have hmono := notAbove_mono cmp f₀ r hyj
    omega
  · right
    have hmono := notBelow_mono cmp f₀ l r (Nat.le_of_not_lt hx)
    have hy : y < s.j := by
      by_contra hy
      have := notAbove_mono cmp f₀ r (Nat.le_of_not_lt hy)
      omega
    refine ⟨?_, ?_⟩
    · by_contra hxi
      have := hstops.less x (by omega) (by omega)
      have := hpair.notBelow_pivot
      omega
    · by_contra hyj
      have := hstops.greater y (by omega) hy
      have := hpair.equal_pivot
      omega

/-- The two scans, as far as they have not passed each other. -/
theorem PartInv.scans (hcmp : PreorderCmp cmp) (hn : n < 4294967295)
    (h : PartInv V f₀ l r s i₁ p₁) (hr : r < n) :
    ∃ i j', scanUp ops s.arr r indexRounds s.i = some i ∧
      scanDown ops s.arr l r indexRounds s.j = some j' ∧ Stops cmp f₀ r i₁ s.j i j' ∧
      i ≤ s.j ∧ (i < r → 0 ≤ cmp (V.elem s.arr i) (f₀ r)) := by
  have hl := h.l_le
  have hp := h.p_le
  have hjq := h.j_le
  have hqr := h.q_le
  have hil := h.i_le
  have hlj := h.l_lt
  obtain ⟨i, hup, hi, hir, hless, hge⟩ := scanUp_spec V hn h.valid hr
    (by omega : i₁ ≤ r) (lt_indexRounds (by omega))
  obtain ⟨j', hdown, hlj', hj, hgreater, hle⟩ := scanDown_spec V hcmp hn h.valid
    hr hlj (by omega) (lt_indexRounds (by omega)).le
  rw [h.pivot] at hless hge hgreater hle
  -- the upward scan does not pass the elements above the pivot
  have hij : i ≤ s.j := by
    by_contra hlt
    have hbelow := hless s.j hil (by omega)
    by_cases hq : s.j < s.q
    · have := h.above s.j (Nat.le_refl _) hq
      omega
    · have := h.equalRight s.j (by omega) (by omega)
      omega
  -- nor the downward scan those below it
  have hji : i₁ ≤ j' + 1 := by
    by_contra hlt
    have habove := hgreater (i₁ - 1) (by omega) (by omega)
    by_cases hp' : i₁ - 1 < p₁
    · have := h.equalLeft (i₁ - 1) (by omega) hp'
      omega
    · have := h.below (i₁ - 1) (by omega) (by omega)
      omega
  refine ⟨i, j', by rw [h.i_eq, hup], hdown, ⟨hi, hj, ?_, ?_, ?_, ?_⟩, hij, hge⟩
  · intro k hik hki
    rw [← h.unseen k hik (by omega)]
    exact hless k hik hki
  · intro k hjk hkj
    rw [← h.unseen k (by omega) hkj]
    exact hgreater k hjk hkj
  · intro hlt
    rw [← h.unseen i hi (by omega)]
    exact hge (by omega)
  · intro hlt
    rw [← h.unseen j' (by omega) hj]
    exact hle (by omega)

/-- Exchanging the elements where the scans stopped. -/
theorem PartInv.exchange (h : PartInv V f₀ l r s i₁ p₁) (hr : r < n)
    (hstops : Stops cmp f₀ r i₁ s.j i j') (hij : i < j') :
    ∃ arr, ops.exch s.arr i j' = some arr ∧ Exchanged V f₀ l r s p₁ i j' arr := by
  have hl := h.l_le
  have hp := h.p_le
  have hjq := h.j_le
  have hqr := h.q_le
  have hi := hstops.i_le
  have hj := hstops.j_lt
  obtain ⟨arr, hexch, hv, helem⟩ := V.exch_eq h.valid (by omega : i < n) (by omega : j' < n)
  have hother : ∀ k, k ≠ i → k ≠ j' → V.elem arr k = V.elem s.arr k := by
    intro k hki hkj
    rw [helem, Function.comp_apply, Equiv.swap_apply_of_ne_of_ne hki hkj]
  refine ⟨arr, hexch, hv, h.rearranged.trans ?_, ?_, ?_, ?_, ?_, ?_, ?_, ?_⟩
  · rw [helem]
    exact rearranged_swap _ (by omega) (by omega)
  · rw [helem, Function.comp_apply, Equiv.swap_apply_left, h.unseen j' (by omega) hj]
  · rw [helem, Function.comp_apply, Equiv.swap_apply_right, h.unseen i hi (by omega)]
  · intro k hlk hkp
    rw [hother k (by omega) (by omega)]
    exact h.equalLeft k hlk hkp
  · intro k hpk hki
    rw [hother k (by omega) (by omega)]
    by_cases hk : k < i₁
    · exact h.below k hpk hk
    · rw [h.unseen k (by omega) (by omega)]
      exact hstops.less k (by omega) hki
  · intro k hjk hkq
    rw [hother k (by omega) (by omega)]
    by_cases hk : k < s.j
    · rw [h.unseen k (by omega) hk]
      exact hstops.greater k hjk hk
    · exact h.above k (by omega) hkq
  · intro k hqk hkr
    rw [hother k (by omega) (by omega)]
    exact h.equalRight k hqk hkr
  · intro k hik hkj
    rw [hother k (by omega) (by omega)]
    exact h.unseen k (by omega) (by omega)

/-- The elements where the scans stopped are themselves a pair that counts when the right one
equals the pivot. -/
theorem PartInv.found_next (h : PartInv V f₀ l r s i₁ p₁)
    (hstops : Stops cmp f₀ r i₁ s.j i j') (hij : i < j') :
    (l < p₁ ∨ cmp (f₀ j') (f₀ r) = 0) ↔
      ∃ x y, x < i + 1 ∧ j' ≤ y ∧ ExchangePair cmp f₀ l r x y := by
  have hl := h.l_le
  have hp := h.p_le
  have hjq := h.j_le
  have hqr := h.q_le
  have hi := hstops.i_le
  have hj := hstops.j_lt
  rw [h.found]
  constructor
  · rintro (⟨x, y, hx, hy, hpair⟩ | hzero)
    · exact ⟨x, y, by omega, by omega, hpair⟩
    · have hge := hstops.ge hij
      obtain ⟨hnb, -⟩ := notBelow_next (l := l) (by omega) hi hstops.less hge
      obtain ⟨hna, -⟩ := notAbove_next hj hstops.greater hzero.le
      have hinv := h.rank
      exact ⟨i, j', Nat.lt_succ_self i, Nat.le_refl _, by omega, hij, by omega, hge, hzero,
        by omega⟩
  · rintro ⟨x, y, hx, hy, hpair⟩
    rcases h.pair_cases hstops hpair with ⟨hx', hy'⟩ | ⟨-, hy'⟩
    · exact .inl ⟨x, y, hx', hy', hpair⟩
    · obtain rfl : y = j' := Nat.le_antisymm hy' hy
      exact .inr hpair.equal_pivot

/-- One round of the loop that exchanges: what is seen grows on both sides. -/
theorem PartInv.step (hcmp : PreorderCmp cmp) (hn : n < 4294967295)
    (h : PartInv V f₀ l r s i₁ p₁) (hr : r < n)
    (hstops : Stops cmp f₀ r i₁ s.j i j') (hij : i < j') :
    ∃ arr₁ s₂ s' p₁', ops.exch s.arr i j' = some arr₁ ∧
      keepLeft ops r { s with arr := arr₁, i := i, j := j' } = some s₂ ∧
      keepRight ops r s₂ = some s' ∧ s'.j = j' ∧ PartInv V f₀ l r s' (i + 1) p₁' := by
  have hl := h.l_le
  have hp := h.p_le
  have hjq := h.j_le
  have hqr := h.q_le
  have hi := hstops.i_le
  have hj := hstops.j_lt
  obtain ⟨arr₁, hexch, hx⟩ := h.exchange hr hstops hij
  have hle₁ : cmp (V.elem arr₁ i) (f₀ r) ≤ 0 := by
    rw [hx.at_i]
    exact hstops.le hij
  -- the element now at `i`
  obtain ⟨arr₂, p₁', hkeep, hv₂, hrearr₂, hp', hl', heq₂, hless₂, hfound₂⟩ :=
    keepLeft_spec V hn (s := { s with arr := arr₁, i := i, j := j' }) hx.valid hr
      (hx.rearranged.outside (by omega)) h.p_eq hl (Nat.le_trans hp hi) (by dsimp only; omega)
      hx.equalLeft hx.below hle₁
  dsimp only at hkeep hrearr₂ hp' hless₂ hfound₂
  have hstay₂ : ∀ k, i < k → V.elem arr₂ k = V.elem arr₁ k := fun k hik =>
    hrearr₂.outside (by omega)
  have hpivot₂ : V.elem arr₂ r = f₀ r := by
    rw [hstay₂ r (by omega), hx.rearranged.outside (by omega)]
  have habove₂ : ∀ k, j' < k → k < s.q → 0 < cmp (V.elem arr₂ k) (f₀ r) := by
    intro k hjk hkq
    rw [hstay₂ k (by omega)]
    exact hx.above k hjk hkq
  have hequal₂ : ∀ k, s.q ≤ k → k < r → cmp (V.elem arr₂ k) (f₀ r) = 0 := by
    intro k hqk hkr
    rw [hstay₂ k (by omega)]
    exact hx.equalRight k hqk hkr
  have hge₂ : 0 ≤ cmp (V.elem arr₂ j') (f₀ r) := by
    rw [hstay₂ j' hij, hx.at_j]
    exact hstops.ge hij
  -- the element now at `j'`
  obtain ⟨arr₃, q', hkeep', hv₃, hrearr₃, hjq', hqr', hgreater₃, heq₃⟩ :=
    keepRight_spec V hcmp hn (s := ⟨arr₂, i, j', pred32 p₁', s.q⟩) hv₂ hr hpivot₂
      (Nat.lt_of_lt_of_le hj hjq) hqr habove₂ hequal₂ hge₂
  dsimp only at hkeep' hrearr₃ hjq' hgreater₃
  obtain ⟨-, hnb⟩ := notBelow_next (l := l) (by omega) hi hstops.less (hstops.ge hij)
  obtain ⟨hna, hna'⟩ := notAbove_next hj hstops.greater (hstops.le hij)
  have hinv := h.rank
  refine ⟨arr₁, _, ⟨arr₃, i, j', pred32 p₁', q'⟩, p₁', hexch, hkeep, hkeep', rfl, ?_⟩
  exact
    { valid := hv₃
      i_eq := by rw [pred32_of_pos (x := i + 1) (by omega) (by omega), Nat.add_sub_cancel]
      p_eq := rfl
      l_le := hl'
      p_le := hp'
      i_le := hij
      l_lt := by dsimp only; omega
      j_le := hjq'
      q_le := hqr'
      equalLeft := fun k hlk hkp => by
        rw [hrearr₃.outside (by omega)]
        exact heq₂ k hlk hkp
      below := fun k hpk hki => by
        rw [hrearr₃.outside (by omega)]
        exact hless₂ k hpk hki
      above := hgreater₃
      equalRight := heq₃
      rearranged := (hx.rearranged.trans (hrearr₂.mono (Nat.le_refl _) (by omega))).trans
        (hrearr₃.mono (by omega) (Nat.le_refl _))
      unseen := fun k hik hkj => by
        dsimp only at hkj
        rw [hrearr₃.outside (by omega), hstay₂ k hik]
        exact hx.unseen k hik hkj
      rank := by dsimp only; omega
      found := by
        rw [hfound₂, hx.at_i]
        exact h.found_next hstops hij }

/-- When the scans have passed each other the loop ends. -/
theorem PartInv.finish (h : PartInv V f₀ l r s i₁ p₁)
    (hstops : Stops cmp f₀ r i₁ s.j i j') (hij : i ≤ s.j) (hmet : j' ≤ i)
    (hge : i < r → 0 ≤ cmp (V.elem s.arr i) (f₀ r)) :
    PartEnd V f₀ l r { s with i := i, j := j' } p₁ where
  valid := h.valid
  p_eq := h.p_eq
  l_le := h.l_le
  p_le := Nat.le_trans h.p_le hstops.i_le
  i_le := Nat.le_trans hij h.j_le
  q_le := h.q_le
  equalLeft := h.equalLeft
  below := fun k hpk hki => by
    by_cases hk : k < i₁
    · exact h.below k hpk hk
    · rw [h.unseen k (by omega) (Nat.lt_of_lt_of_le hki hij)]
      exact hstops.less k (by omega) hki
  notBelow := fun k hik hkq => by
    have hqr := h.q_le
    have hi := hstops.i_le
    dsimp only at hik hkq ⊢
    by_cases hk : k < s.j
    · rcases Nat.eq_or_lt_of_le hik with rfl | hlt
      · exact hge (by omega)
      · rw [h.unseen k (by omega) hk]
        exact (hstops.greater k (by omega) hk).le
    · exact (h.above k (by omega) hkq).le
  equalRight := h.equalRight
  rearranged := h.rearranged
  found := by
    rw [h.found]
    constructor
    · rintro ⟨x, y, -, -, hpair⟩
      exact ⟨x, y, hpair⟩
    · rintro ⟨x, y, hpair⟩
      rcases h.pair_cases hstops hpair with ⟨hx, hy⟩ | ⟨hx, hy⟩
      · exact ⟨x, y, hx, hy, hpair⟩
      · exact absurd hpair.lt (by omega)

/-- **The partitioning loop** ends, with the part divided. -/
theorem partLoop_spec (hcmp : PreorderCmp cmp) (hn : n < 4294967295)
    (h : PartInv V f₀ l r s i₁ p₁) (hr : r < n) (hfuel : s.j - i₁ < fuel) :
    ∃ s' p₁', partLoop ops l r fuel s = some s' ∧ PartEnd V f₀ l r s' p₁' := by
  induction fuel generalizing s i₁ p₁ with
  | zero => omega
  | succ fuel ih =>
      obtain ⟨i, j', hup, hdown, hstops, hij, hge⟩ := h.scans hcmp hn hr
      rw [partLoop, hup, Option.bind_eq_bind, Option.bind_some, hdown, Option.bind_eq_bind,
        Option.bind_some]
      by_cases hmet : j' ≤ i
      · rw [if_pos hmet]
        exact ⟨_, p₁, rfl, h.finish hstops hij hmet hge⟩
      · obtain ⟨arr₁, s₂, s', p₁', hexch, hkeep, hkeep', hj', h'⟩ :=
          h.step hcmp hn hr hstops (Nat.lt_of_not_le hmet)
        have hi := hstops.i_le
        have hj := hstops.j_lt
        rw [if_neg hmet, hexch, Option.bind_eq_bind, Option.bind_some, hkeep, Option.bind_some,
          hkeep', Option.bind_some]
        exact ih h' (by omega)

end

/-! ### Moving the equal elements to the middle -/

section
variable {P : α → Prop} {l r i p₁ q k fuel : ℕ} {arr : σ}

/-- The first loop that moves exchanges the positions from `l` to one below `p` with those
before `i`. -/
theorem moveLeft_spec (hn : n < 4294967295) (hv : V.Valid arr) (hi : i ≤ n) (hpos : 0 < p₁)
    (hpi : p₁ ≤ i) (hlk : l ≤ k) (hk : k < p₁ ∨ k = l)
    (hgathered : Gathered P (fun x => l ≤ x ∧ x < p₁) (fun x => i - 1 + l - x) (fun x => x < k)
      (V.elem arr)) (hfuel : p₁ - k < fuel) :
    ∃ arr', moveLeft ops (pred32 p₁) fuel arr k (pred32 (i - (k - l))) =
        some (arr', pred32 (i - (p₁ - 1 - l))) ∧ V.Valid arr' ∧
      Rearranged l i (V.elem arr) (V.elem arr') ∧
      ∀ x, i - (p₁ - 1 - l) ≤ x → x < i → P (V.elem arr' x) := by
  induction fuel generalizing arr k with
  | zero => omega
  | succ fuel ih =>
      have hp : pred32 p₁ = p₁ - 1 := pred32_of_pos hpos (by omega)
      rw [moveLeft]
      by_cases hlt : k < p₁ - 1
      · have hj : pred32 (i - (k - l)) = i - 1 + l - k := by
          rw [pred32_of_pos (by omega) (by omega)]
          omega
        obtain ⟨arr₁, hexch, hv₁, helem⟩ := V.exch_eq hv (by omega : k < n)
          (by omega : i - 1 + l - k < n)
        have hgathered₁ : Gathered P (fun x => l ≤ x ∧ x < p₁) (fun x => i - 1 + l - x)
            (fun x => x < k + 1) (V.elem arr₁) := by
          have := hgathered.swap (k := k) (fun x hx => by omega) ⟨hlk, by omega⟩ (Nat.lt_irrefl k)
          rw [helem]
          simpa only [Nat.lt_succ_iff_lt_or_eq] using this
        obtain ⟨arr', hmove, hv', hrearr, hP⟩ := ih hv₁ (k := k + 1) (by omega) (by omega)
          hgathered₁ (by omega)
        rw [hp] at hmove
        refine ⟨arr', ?_, hv', ?_, hP⟩
        · rw [hp, if_pos hlt, hj, hexch, Option.bind_eq_bind, Option.bind_some,
            succ32_of_lt (by omega), show i - 1 + l - k = i - (k + 1 - l) by omega]
          exact hmove
        · refine Rearranged.trans ?_ hrearr
          rw [helem]
          exact rearranged_swap _ (by omega) (by omega)
      · refine ⟨arr, ?_, hv, Rearranged.refl _ _ _, fun x hx hxi => ?_⟩
        · rw [hp, if_neg hlt, show k - l = p₁ - 1 - l by omega]
        · have := hgathered.done (i - 1 + l - x) (by omega) (by omega)
          rwa [show i - 1 + l - (i - 1 + l - x) = x by omega] at this

/-- The second one exchanges the positions from one above `q` up to the pivot with those
behind `i`. -/
theorem moveRight_spec (hn : n < 4294967295) (hv : V.Valid arr) (hr : r < n) (hiq : i ≤ q)
    (hqr : q ≤ r) (hk : k < r) (hqk : q ≤ k ∨ k + 1 = r)
    (hgathered : Gathered P (fun x => q ≤ x ∧ x < r) (fun x => r + i - x) (fun x => k < x)
      (V.elem arr)) (hfuel : k - q < fuel) :
    ∃ arr', moveRight ops q fuel arr k (r + i - k) = some (arr', i + 1 + (r - 1 - q)) ∧
      V.Valid arr' ∧ Rearranged (i + 1) r (V.elem arr) (V.elem arr') ∧
      ∀ x, i + 1 ≤ x → x < i + 1 + (r - 1 - q) → P (V.elem arr' x) := by
  induction fuel generalizing arr k with
  | zero => omega
  | succ fuel ih =>
      rw [moveRight]
      by_cases hlt : q < k
      · obtain ⟨arr₁, hexch, hv₁, helem⟩ := V.exch_eq hv (by omega : r + i - k < n)
          (by omega : k < n)
        rw [Equiv.swap_comm] at helem
        have hgathered₁ : Gathered P (fun x => q ≤ x ∧ x < r) (fun x => r + i - x)
            (fun x => k - 1 < x) (V.elem arr₁) := by
          have := hgathered.swap (k := k) (fun x hx => by omega) ⟨by omega, hk⟩ (Nat.lt_irrefl k)
          have hset : (fun x => k - 1 < x) = fun x => k < x ∨ x = k := by
            funext x
            exact propext (by omega)
          rwa [helem, hset]
        obtain ⟨arr', hmove, hv', hrearr, hP⟩ := ih hv₁ (k := k - 1) (by omega) (by omega)
          hgathered₁ (by omega)
        refine ⟨arr', ?_, hv', ?_, hP⟩
        · rw [if_pos hlt, hexch, Option.bind_eq_bind, Option.bind_some,
            pred32_of_pos (by omega) (by omega), succ32_of_lt (by omega),
            show r + i - k + 1 = r + i - (k - 1) by omega]
          exact hmove
        · refine Rearranged.trans ?_ hrearr
          rw [helem]
          exact rearranged_swap _ (by omega) (by omega)
      · refine ⟨arr, ?_, hv, Rearranged.refl _ _ _, fun x hx hxi => ?_⟩
        · rw [if_neg hlt]
          congr 2
          omega
        · have := hgathered.done (r + i - x) (by omega) (by omega)
          rwa [show r + i - (r + i - x) = x by omega] at this

end

/-! ### The whole partition -/

/-- The part with the pivot in its place, at `i`. -/
structure PivotPlaced (V : ArrayView ops cmp n) (f₀ : ℕ → α) (l r : ℕ) (arr : σ)
    (i p₁ q : ℕ) : Prop where
  valid : V.Valid arr
  l_le : l ≤ p₁
  p_le : p₁ ≤ i
  i_le : i ≤ q
  q_le : q ≤ r
  rearranged : Rearranged l (r + 1) f₀ (V.elem arr)
  equalLeft : ∀ k, l ≤ k → k < p₁ → cmp (V.elem arr k) (f₀ r) = 0
  below : ∀ k, p₁ ≤ k → k < i → cmp (V.elem arr k) (f₀ r) < 0
  pivot : cmp (V.elem arr i) (f₀ r) = 0
  right : ∀ k, i < k → k < r + 1 → 0 ≤ cmp (V.elem arr k) (f₀ r)
  equalRight : ∀ k, q ≤ k → k < r → cmp (V.elem arr k) (f₀ r) = 0
  found : l < p₁ ↔ ∃ x y, ExchangePair cmp f₀ l r x y

/-- The part once it is divided: `m` and `i` are the ends of the middle. -/
structure PartPost (V : ArrayView ops cmp n) (f₀ : ℕ → α) (l r : ℕ) (arr' : σ) (m i : ℕ) :
    Prop where
  valid : V.Valid arr'
  m_pos : 0 < m
  l_le : l ≤ m
  m_le : m ≤ i
  m_le_r : m ≤ r
  l_lt : l < i
  i_le : i ≤ r + 1
  rearranged : Rearranged l (r + 1) f₀ (V.elem arr')
  left : ∀ k, l ≤ k → k < m → cmp (V.elem arr' k) (f₀ r) ≤ 0
  mid : ∀ k, m ≤ k → k < i → cmp (V.elem arr' k) (f₀ r) = 0
  right : ∀ k, i ≤ k → k < r + 1 → 0 ≤ cmp (V.elem arr' k) (f₀ r)

section
variable {f₀ : ℕ → α} {l r : ℕ} {arr arr₁ : σ}

/-- Exchanging the pivot with the element where the indices met puts it in its place. -/
theorem PartEnd.place (h : PartEnd V f₀ l r s p₁)
    (hcmp : PreorderCmp cmp) (hlr : l < r) (hv : V.Valid arr₁)
    (helem : V.elem arr₁ = V.elem s.arr ∘ Equiv.swap s.i r) :
    PivotPlaced V f₀ l r arr₁ s.i p₁ s.q := by
  have hl := h.l_le
  have hp := h.p_le
  have hi := h.i_le
  have hq := h.q_le
  have hpivot : cmp (V.elem arr₁ s.i) (f₀ r) = 0 := by
    rw [helem, Function.comp_apply, Equiv.swap_apply_left, h.rearranged.outside (by omega)]
    exact hcmp.refl _
  have hother : ∀ k, k ≠ s.i → k ≠ r → V.elem arr₁ k = V.elem s.arr k := by
    intro k hki hkr
    rw [helem, Function.comp_apply, Equiv.swap_apply_of_ne_of_ne hki hkr]
  have hge : ∀ k, s.i ≤ k → k < r → 0 ≤ cmp (V.elem s.arr k) (f₀ r) := by
    intro k hik hkr
    by_cases hk : k < s.q
    · exact h.notBelow k hik hk
    · exact (h.equalRight k (by omega) hkr).ge
  refine ⟨hv, hl, hp, hi, hq, ?_, ?_, ?_, hpivot, ?_, ?_, h.found⟩
  · refine (h.rearranged.mono (Nat.le_refl _) (Nat.le_succ r)).trans ?_
    rw [helem]
    exact rearranged_swap _ (by omega) (by omega)
  · intro k hlk hkp
    rw [hother k (by omega) (by omega)]
    exact h.equalLeft k hlk hkp
  · intro k hpk hki
    rw [hother k (by omega) (by omega)]
    exact h.below k hpk hki
  · intro k hik hkr
    by_cases hk : k = r
    · rw [hk, helem, Function.comp_apply, Equiv.swap_apply_right]
      exact hge s.i (Nat.le_refl _) (by omega)
    · rw [hother k (by omega) hk]
      exact hge k (by omega) (by omega)
  · intro k hqk hkr
    by_cases hk : k = s.i
    · rwa [hk]
    · rw [hother k hk (by omega)]
      exact h.equalRight k hqk hkr

/-- What `partition` does before the moving loops. -/
theorem partition_placed (hcmp : PreorderCmp cmp) (hn : n < 4294967295) (hv : V.Valid arr)
    (hlr : l < r) (hr : r < n) :
    ∃ arr₁ i p₁ q, PivotPlaced V (V.elem arr) l r arr₁ i p₁ q ∧
      partition ops arr l r = do
        let (arr₂, j) ← moveLeft ops (pred32 p₁) indexRounds arr₁ l (pred32 i)
        let (arr₃, i) ← moveRight ops q indexRounds arr₂ (pred32 r) (succ32 i)
        return (arr₃, j, i) := by
  obtain ⟨s, p₁, hloop, h⟩ := partLoop_spec hcmp hn (partInv_start hv hlr) hr
    (lt_indexRounds (show r - l < 4294967296 by omega))
  have hi := h.i_le
  have hq := h.q_le
  obtain ⟨arr₁, hexch, hv₁, helem⟩ := V.exch_eq h.valid (by omega : s.i < n) hr
  refine ⟨arr₁, s.i, p₁, s.q, h.place hcmp hlr hv₁ helem, ?_⟩
  rw [partition, hloop, Option.bind_eq_bind, Option.bind_some, hexch, Option.bind_eq_bind,
    Option.bind_some, h.p_eq]

/-- The first moving loop, with the pivot in its place: what it collected on the left ends up
before the pivot. -/
theorem PivotPlaced.moveLeft_eq {q : ℕ} (h : PivotPlaced V f₀ l r arr i p₁ q)
    (hn : n < 4294967295) (hr : r < n) (hpos : 0 < p₁) :
    ∃ arr', moveLeft ops (pred32 p₁) indexRounds arr l (pred32 i) =
        some (arr', pred32 (i - (p₁ - 1 - l))) ∧ V.Valid arr' ∧
      Rearranged l i (V.elem arr) (V.elem arr') ∧
      (∀ k, l ≤ k → k < i → cmp (V.elem arr' k) (f₀ r) ≤ 0) ∧
      ∀ k, i - (p₁ - 1 - l) ≤ k → k < i → cmp (V.elem arr' k) (f₀ r) = 0 := by
  have hl := h.l_le
  have hp := h.p_le
  have hi := h.i_le
  have hq := h.q_le
  have hequal : Gathered (fun a => cmp a (f₀ r) = 0) (fun x => l ≤ x ∧ x < p₁)
      (fun x => i - 1 + l - x) (fun x => x < l) (V.elem arr) :=
    gathered_start (fun x hx => by omega) fun x hx => h.equalLeft x hx.1 hx.2
  obtain ⟨arr', hmove, hv', hrearr, hequal'⟩ := moveLeft_spec hn h.valid (by omega) hpos hp
    (Nat.le_refl l) (.inr rfl) hequal (lt_indexRounds (by omega))
  rw [Nat.sub_self, Nat.sub_zero] at hmove
  have hle := hrearr.forall (P := fun a => cmp a (f₀ r) ≤ 0) fun k hlk hki => by
    by_cases hk : k < p₁
    · exact (h.equalLeft k hlk hk).le
    · exact (h.below k (by omega) hki).le
  exact ⟨arr', hmove, hv', hrearr, hle, hequal'⟩

/-- The second moving loop, on an array that the first one left as it was from the pivot on. -/
theorem PivotPlaced.moveRight_eq {q : ℕ} (h : PivotPlaced V f₀ l r arr i p₁ q)
    (hn : n < 4294967295) (hlr : l < r) (hr : r < n) (hv₁ : V.Valid arr₁)
    (hstay : ∀ k, i ≤ k → V.elem arr₁ k = V.elem arr k) :
    ∃ arr', moveRight ops q indexRounds arr₁ (pred32 r) (succ32 i) =
        some (arr', i + 1 + (r - 1 - q)) ∧ V.Valid arr' ∧
      Rearranged (i + 1) r (V.elem arr₁) (V.elem arr') ∧
      (∀ k, i < k → k < r + 1 → 0 ≤ cmp (V.elem arr' k) (f₀ r)) ∧
      ∀ k, i < k → k < i + 1 + (r - 1 - q) → cmp (V.elem arr' k) (f₀ r) = 0 := by
  have hi := h.i_le
  have hq := h.q_le
  have hequal : Gathered (fun a => cmp a (f₀ r) = 0) (fun x => q ≤ x ∧ x < r)
      (fun x => r + i - x) (fun x => r - 1 < x) (V.elem arr₁) := by
    refine gathered_start (fun x hx => by omega) fun x hx => ?_
    rw [hstay x (by omega)]
    exact h.equalRight x hx.1 hx.2
  obtain ⟨arr', hmove, hv', hrearr, hequal'⟩ := moveRight_spec hn hv₁ hr hi hq
    (by omega : r - 1 < r) (by omega) hequal (lt_indexRounds (by omega))
  have hstart : r + i - (r - 1) = i + 1 := by omega
  rw [hstart] at hmove
  have hge := hrearr.forall (P := fun a => 0 ≤ cmp a (f₀ r)) fun k hik hkr => by
    rw [hstay k (by omega)]
    exact h.right k hik (by omega)
  refine ⟨arr', ?_, hv', hrearr, ?_, hequal'⟩
  · rw [pred32_of_pos (by omega) (by omega), succ32_of_lt (by omega), hmove]
  · intro k hik hkr
    by_cases hk : k < r
    · exact hge k hik hk
    · rw [hrearr.outside (by omega), hstay k (by omega)]
      exact h.right k hik hkr

/-- **The partition** divides the part, unless it begins at the first element and nothing is
collected on the left. -/
theorem partition_spec (hcmp : PreorderCmp cmp) (hn : n < 4294967295) (hv : V.Valid arr)
    (hlr : l < r) (hr : r < n) (hpos : 0 < l ∨ ∃ x y, ExchangePair cmp (V.elem arr) l r x y) :
    ∃ arr' m i, partition ops arr l r = some (arr', pred32 m, i) ∧
      PartPost V (V.elem arr) l r arr' m i := by
  obtain ⟨arr₁, i, p₁, q, h, hpart⟩ := partition_placed hcmp hn hv hlr hr
  have hl := h.l_le
  have hp := h.p_le
  have hi := h.i_le
  have hq := h.q_le
  have hcollected : 0 < l ∨ l < p₁ := hpos.imp_right h.found.mpr
  obtain ⟨arr₂, hleft, hv₂, hrearr₂, hle, hequal₂⟩ := h.moveLeft_eq hn hr (by omega)
  have hstay₂ : ∀ k, i ≤ k → V.elem arr₂ k = V.elem arr₁ k := fun k hk =>
    hrearr₂.outside (by omega)
  obtain ⟨arr₃, hright, hv₃, hrearr₃, hge, hequal₃⟩ := h.moveRight_eq hn hlr hr hv₂ hstay₂
  have hstay₃ : ∀ k, k ≤ i → V.elem arr₃ k = V.elem arr₂ k := fun k hk =>
    hrearr₃.outside (by omega)
  refine ⟨arr₃, i - (p₁ - 1 - l), i + 1 + (r - 1 - q), ?_, hv₃, by omega, by omega, by omega,
    by omega, by omega, by omega, ?_, ?_, ?_, fun k hik => hge k (by omega)⟩
  · rw [hpart, hleft, Option.bind_eq_bind, Option.bind_some]
    dsimp only
    rw [hright]
    rfl
  · exact (h.rearranged.trans (hrearr₂.mono (Nat.le_refl _) (by omega))).trans
      (hrearr₃.mono (by omega) (by omega))
  · intro k hlk hkm
    rw [hstay₃ k (by omega)]
    exact hle k hlk (by omega)
  · intro k hmk hki
    rcases Nat.lt_trichotomy k i with hlt | rfl | hgt
    · rw [hstay₃ k hlt.le]
      exact hequal₂ k hmk hlt
    · rw [hstay₃ k (Nat.le_refl _), hstay₂ k (Nat.le_refl _)]
      exact h.pivot
    · exact hequal₃ k hgt hki

/-- From the first element with `p` below zero, the first moving loop runs down to the
element below the array. -/
theorem moveLeft_below_zero (hn : n < 4294967295) (hv : V.Valid arr)
    (hbelow : ∀ arr a, V.Valid arr → ops.exch arr a (pred32 0) = none) {k : ℕ}
    (hk : k + i < n) : moveLeft ops (pred32 0) fuel arr k (pred32 i) = none := by
  induction fuel generalizing arr k i with
  | zero => rfl
  | succ fuel ih =>
      rw [moveLeft, if_pos (by rw [pred32_zero]; omega)]
      cases i with
      | zero => rw [hbelow arr k hv, Option.bind_eq_bind, Option.bind_none]
      | succ i =>
          obtain ⟨arr₁, hexch, hv₁, -⟩ := V.exch_eq hv (by omega : k < n) (by omega : i < n)
          rw [pred32_of_pos (Nat.succ_pos i) (by omega), Nat.succ_sub_one, hexch,
            Option.bind_eq_bind, Option.bind_some, succ32_of_lt (by omega)]
          exact ih hv₁ (by omega)

/-- When nothing is collected on the left of a part that begins at the first element, the
partition accesses the element below the array. -/
theorem partition_below_zero (hcmp : PreorderCmp cmp) (hn : n < 4294967295) (hv : V.Valid arr)
    (hpos : 0 < r) (hr : r < n) (hbelow : ∀ arr a, V.Valid arr → ops.exch arr a (pred32 0) = none)
    (hpair : ¬ ∃ x y, ExchangePair cmp (V.elem arr) 0 r x y) :
    partition ops arr 0 r = none := by
  obtain ⟨arr₁, i, p₁, q, h, hpart⟩ := partition_placed hcmp hn hv hpos hr
  have hi := h.i_le
  have hq := h.q_le
  obtain rfl : p₁ = 0 := Nat.eq_zero_of_not_pos fun hp => hpair (h.found.mp hp)
  rw [hpart, moveLeft_below_zero hn h.valid hbelow (by omega), Option.bind_eq_bind,
    Option.bind_none]

end

end Loops

end RtBoot
