import RtBoot.QsortPartition

/-!
# When `rt_qsort` Sorts

A call of `quicksort` on a part that does not begin at the first element sorts it, and so do
its recursive calls: their parts do not begin there either. A call on a part that begins at
the first element makes one recursive call of the same kind, on its left part. Of such calls
each must find an exchange pair (`ExchangePair`), or it accesses an element outside the
array. `LeftCallsMeet` says that of the call and of all the calls it makes, of each about the
array as it finds it.

Elements of no bytes are an exception: exchanging them does nothing, at any offset.

## Main results

* `quicksort_sorts_of_pos`: a part that does not begin at the first element is sorted.
* `quicksort_sorts_of_leftCalls`: the whole array is, when its left calls divide their parts.
* `rtQsort_sorts_iff`: exactly when `rt_qsort` sorts.
-/

namespace RtBoot

section Sorting
variable {σ : Type} {ops : ArrayOps σ} {α : Type*} {cmp : α → α → ℤ} {n : ℕ}

/-- The part from `l` up to `hi` is sorted, and nothing else is changed. -/
structure SortsPart (V : ArrayView ops cmp n) (arr arr' : σ) (l hi : ℕ) : Prop where
  valid : V.Valid arr'
  rearranged : Rearranged l hi (V.elem arr) (V.elem arr')
  sorted : SortedOn cmp l hi (V.elem arr')

/-- Each call on a part that begins at the first element and has at least two finds an
exchange pair: the call up to `r` and the calls it makes on left parts. That `partition` returns
follows from the pair (`partition_spec`); the equation only names what it leaves. -/
inductive LeftCallsMeet (ops : ArrayOps σ) (cmp : α → α → ℤ) (elem : σ → ℕ → α) :
    σ → ℕ → Prop
  | single (arr : σ) : LeftCallsMeet ops cmp elem arr 0
  | call {arr arr' : σ} {r j i : ℕ} : 0 < r → (∃ x y, ExchangePair cmp (elem arr) 0 r x y) →
      partition ops arr 0 r = some (arr', j, i) → LeftCallsMeet ops cmp elem arr' j →
      LeftCallsMeet ops cmp elem arr r

/-- The call up to `r` on a part that begins at the first element divides it, and so do the
calls it makes on left parts. -/
inductive LeftCalls (V : ArrayView ops cmp n) : σ → ℕ → Prop
  | single (arr : σ) : LeftCalls V arr 0
  | call {arr arr' : σ} {r m i : ℕ} : 0 < r → partition ops arr 0 r = some (arr', pred32 m, i) →
      PartPost V (V.elem arr) 0 r arr' m i → LeftCalls V arr' (m - 1) → LeftCalls V arr r

variable {V : ArrayView ops cmp n} {arr : σ}

theorem SortsPart.refl (hv : V.Valid arr) {l hi : ℕ} (h : hi ≤ l + 1) :
    SortsPart V arr arr l hi :=
  ⟨hv, Rearranged.refl _ _ _, fun x y hlx hxy hyhi => absurd hxy (by omega)⟩

/-- One call: the part is divided and the two outer parts are sorted. -/
theorem PartPost.sorts (hcmp : PreorderCmp cmp) {arr₁ arr₂ arr₃ : σ} {l r m i : ℕ}
    (h : PartPost V (V.elem arr) l r arr₁ m i) (h₁ : SortsPart V arr₁ arr₂ l m)
    (h₂ : SortsPart V arr₂ arr₃ i (r + 1)) : SortsPart V arr arr₃ l (r + 1) where
  valid := h₂.valid
  rearranged := (h.rearranged.trans (h₁.rearranged.mono (Nat.le_refl _)
    (Nat.le_succ_of_le h.m_le_r))).trans (h₂.rearranged.mono h.l_lt.le (Nat.le_refl _))
  sorted := sortedOn_of_parts hcmp h.m_le h.left h.mid h.right h₁.rearranged h₁.sorted
    h₂.rearranged h₂.sorted

/-- One call that divides its part and makes its two recursive calls. -/
theorem quicksort_call {arr₁ arr₂ arr₃ : σ} {fuel l r j i : ℕ} (hlr : l < r)
    (hpart : partition ops arr l r = some (arr₁, j, i))
    (hleft : quicksort ops fuel arr₁ l j = some arr₂)
    (hright : quicksort ops fuel arr₂ i r = some arr₃) :
    quicksort ops (fuel + 1) arr l r = some arr₃ := by
  rw [quicksort, if_neg (Nat.not_le_of_lt hlr), hpart, Option.bind_eq_bind, Option.bind_some]
  dsimp only
  rw [hleft, Option.bind_eq_bind, Option.bind_some, hright]

/-- **A part that does not begin at the first element** is sorted. -/
theorem quicksort_sorts_of_pos (hcmp : PreorderCmp cmp) (hn : n < 4294967295)
    (hv : V.Valid arr) {l r fuel : ℕ} (hl : 0 < l) (hr : r < n) (hfuel : r + 1 - l < fuel) :
    ∃ arr', quicksort ops fuel arr l r = some arr' ∧ SortsPart V arr arr' l (r + 1) := by
  induction fuel generalizing arr l r with
  | zero => omega
  | succ fuel ih =>
      by_cases hrl : r ≤ l
      · exact ⟨arr, if_pos hrl, SortsPart.refl hv (Nat.succ_le_succ hrl)⟩
      · obtain ⟨arr₁, m, i, hpart, h⟩ := partition_spec hcmp hn hv (by omega) hr (.inl hl)
        have hm := h.m_pos
        have hmr := h.m_le_r
        have hli := h.l_lt
        obtain ⟨arr₂, hleft, h₁⟩ := ih h.valid hl (r := m - 1) (by omega) (by omega)
        obtain ⟨arr₃, hright, h₂⟩ := ih h₁.valid (l := i) (by omega) hr (by omega)
        rw [Nat.sub_add_cancel hm] at h₁
        rw [pred32_of_pos hm (by omega)] at hpart
        exact ⟨arr₃, quicksort_call (by omega) hpart hleft hright, h.sorts hcmp h₁ h₂⟩

/-- **A part that begins at the first element** is sorted when the left calls divide their
parts. -/
theorem quicksort_sorts_of_leftCalls (hcmp : PreorderCmp cmp) (hn : n < 4294967295)
    (hv : V.Valid arr) {r fuel : ℕ} (hcalls : LeftCalls V arr r) (hr : r < n)
    (hfuel : r + 1 < fuel) :
    ∃ arr', quicksort ops fuel arr 0 r = some arr' ∧ SortsPart V arr arr' 0 (r + 1) := by
  induction hcalls generalizing fuel with
  | single arr =>
      obtain ⟨fuel, rfl⟩ := Nat.exists_eq_succ_of_ne_zero (by omega : fuel ≠ 0)
      exact ⟨arr, rfl, SortsPart.refl hv (Nat.le_refl 1)⟩
  | @call arr arr₁ r m i hpos hpart h _ ih =>
      obtain ⟨fuel, rfl⟩ := Nat.exists_eq_succ_of_ne_zero (by omega : fuel ≠ 0)
      have hm := h.m_pos
      have hmr := h.m_le_r
      have hli := h.l_lt
      obtain ⟨arr₂, hleft, h₁⟩ := ih h.valid (by omega)
        (show m - 1 + 1 < fuel by omega)
      obtain ⟨arr₃, hright, h₂⟩ := quicksort_sorts_of_pos hcmp hn h₁.valid hli hr
        (show r + 1 - i < fuel by omega)
      rw [Nat.sub_add_cancel hm] at h₁
      rw [pred32_of_pos hm (by omega)] at hpart
      exact ⟨arr₃, quicksort_call hpos hpart hleft hright, h.sorts hcmp h₁ h₂⟩

/-- Calls that find exchange pairs divide their parts. -/
theorem LeftCallsMeet.leftCalls (hcmp : PreorderCmp cmp) (hn : n < 4294967295)
    (hv : V.Valid arr) {r : ℕ} (hr : r < n) (h : LeftCallsMeet ops cmp V.elem arr r) :
    LeftCalls V arr r := by
  induction h with
  | single arr => exact .single arr
  | @call arr arr₁ r j i hpos hpair hpart _ ih =>
      obtain ⟨arr₁', m, i', hpart', hpost⟩ := partition_spec hcmp hn hv hpos hr (.inr hpair)
      have hm := hpost.m_pos
      have hmr := hpost.m_le_r
      rw [hpart] at hpart'
      obtain ⟨rfl, hj, rfl⟩ : arr₁ = arr₁' ∧ j = pred32 m ∧ i = i' := by
        simpa only [Option.some.injEq, Prod.mk.injEq] using hpart'
      rw [hj] at hpart
      rw [hj, pred32_of_pos hm (by omega)] at ih
      exact .call hpos hpart hpost (ih hpost.valid (by omega))

/-- Where exchanging with the element below the array fails, a call that returns and the left
calls it makes have found exchange pairs. -/
theorem leftCallsMeet_of_quicksort (hcmp : PreorderCmp cmp) (hn : n < 4294967295)
    (hbelow : ∀ arr a, V.Valid arr → ops.exch arr a (pred32 0) = none) (hv : V.Valid arr)
    {r fuel : ℕ} (hr : r < n) {arr' : σ} (h : quicksort ops fuel arr 0 r = some arr') :
    LeftCallsMeet ops cmp V.elem arr r := by
  induction fuel generalizing arr r arr' with
  | zero => cases h
  | succ fuel ih =>
      rw [quicksort] at h
      by_cases hpos : r ≤ 0
      · obtain rfl := Nat.le_zero.mp hpos
        exact .single arr
      · rw [if_neg hpos] at h
        by_cases hpair : ∃ x y, ExchangePair cmp (V.elem arr) 0 r x y
        · obtain ⟨arr₁, m, i, hpart, hpost⟩ := partition_spec hcmp hn hv (by omega) hr (.inr hpair)
          have hm := hpost.m_pos
          have hmr := hpost.m_le_r
          rw [hpart, Option.bind_eq_bind, Option.bind_some] at h
          dsimp only at h
          obtain ⟨arr₂, hleft, -⟩ := Option.bind_eq_some_iff.mp h
          rw [pred32_of_pos hm (by omega)] at hleft hpart
          exact .call (by omega) hpair hpart (ih hpost.valid (by omega) hleft)
        · rw [partition_below_zero hcmp hn hv (by omega) hr hbelow hpair] at h
          cases h

end Sorting

/-! ### Elements of no bytes -/

/-- Exchanges that do nothing, as often as `p` below zero asks for. -/
theorem moveLeft_idle {σ : Type} {ops : ArrayOps σ} {arr : σ}
    (hexch : ∀ a b, ops.exch arr a b = some arr) {fuel k : ℕ} (hk : k ≤ 4294967295)
    (hfuel : 4294967295 - k < fuel) :
    moveLeft ops (pred32 0) fuel arr k (4294967295 - k) = some (arr, 0) := by
  induction fuel generalizing k with
  | zero => omega
  | succ fuel ih =>
      rw [moveLeft, pred32_zero]
      by_cases hlt : k < 4294967295
      · rw [if_pos hlt, hexch, Option.bind_eq_bind, Option.bind_some, succ32_of_lt hlt,
          pred32_of_pos (by omega) (by omega), Nat.sub_sub, ← pred32_zero]
        exact ih hlt (by omega)
      · rw [if_neg hlt, show 4294967295 - k = 0 by omega]

section NoBytes
variable {nmemb : ℕ} {compar : Elem 0 → Elem 0 → ℤ}

theorem compar_no_bytes (hcmp : PreorderCmp compar) (a b : Elem 0) : compar a b = 0 := by
  rw [Subsingleton.elim a b]
  exact hcmp.refl b

/-- Two elements of no bytes are divided, by exchanges that do nothing. -/
theorem partition_no_bytes (hcmp : PreorderCmp compar) (hn : nmemb < 4294967295)
    (hsmall : nmemb * 0 < 4294967296) {base : List (BitVec 8)} (hlen : base.length = nmemb * 0)
    (hr : 1 < nmemb) :
    ∃ base', partition (byteOps 0 compar) base 0 1 = some (base', pred32 1, 1) ∧
      PartPost (byteView compar hsmall) (elemOf 0 base) 0 1 base' 1 1 := by
  obtain ⟨base₁, i, p₁, q, h, hpart⟩ := partition_placed (V := byteView compar hsmall) hcmp hn
    hlen Nat.zero_lt_one hr
  obtain rfl : p₁ = 0 := Nat.eq_zero_of_not_pos fun hp => by
    obtain ⟨x, y, hpair⟩ := h.found.mp hp
    have := hpair.lt
    have := hpair.right
    omega
  obtain rfl : i = 0 := Nat.eq_zero_of_not_pos fun hi => by
    have := h.below 0 (Nat.le_refl 0) hi
    rw [compar_no_bytes hcmp] at this
    omega
  have hidle : moveLeft (byteOps 0 compar) (pred32 0) indexRounds base₁ 0 (pred32 0) =
      some (base₁, 0) :=
    moveLeft_idle (fun _ _ => rfl) (Nat.zero_le _) (lt_indexRounds (by omega))
  obtain ⟨base', hright, hv, hrearr, -⟩ := moveRight_spec (P := fun _ => True) hn h.valid hr
    h.i_le h.q_le Nat.zero_lt_one (.inr rfl)
    (gathered_start (fun x hx => by omega) fun _ _ => trivial) (lt_indexRounds (by omega))
  have hq := h.q_le
  refine ⟨base', ?_, hv, by omega, by omega, by omega, by omega, by omega, by omega,
    h.rearranged.trans (hrearr.mono (Nat.zero_le _) (by omega)), ?_, ?_, ?_⟩
  · rw [show 0 + 1 + (1 - 1 - q) = 1 by omega] at hright
    rw [hpart, hidle, Option.bind_eq_bind, Option.bind_some]
    dsimp only
    rw [show pred32 1 = 0 from rfl, show succ32 0 = 1 + 0 - 0 from rfl, hright]
    rfl
  · intro k _ _
    exact (compar_no_bytes hcmp _ _).le
  · intro k hle hlt
    exact absurd hle (Nat.not_le_of_lt hlt)
  · intro k _ _
    exact (compar_no_bytes hcmp _ _).ge

/-- Parts of elements of no bytes are divided. -/
theorem leftCalls_no_bytes (hcmp : PreorderCmp compar) (hn : nmemb < 4294967295)
    (hsmall : nmemb * 0 < 4294967296) {base : List (BitVec 8)} (hlen : base.length = nmemb * 0)
    {r : ℕ} (hr : r < nmemb) : LeftCalls (byteView compar hsmall) base r := by
  induction r using Nat.strong_induction_on generalizing base with
  | _ r ih =>
      rcases Nat.lt_trichotomy r 1 with hzero | rfl | htwo
      · obtain rfl : r = 0 := by omega
        exact .single base
      · obtain ⟨base', hpart, hpost⟩ := partition_no_bytes hcmp hn hsmall hlen hr
        exact .call Nat.zero_lt_one hpart hpost (.single base')
      · have hpair : ExchangePair compar (elemOf 0 base) 0 r 0 (r - 1) := by
          refine ⟨Nat.le_refl 0, by omega, by omega, (compar_no_bytes hcmp _ _).ge,
            compar_no_bytes hcmp _ _, ?_⟩
          rw [notBelow, Nat.count_zero, Nat.zero_add, Nat.sub_add_cancel (by omega)]
        obtain ⟨base', m, i, hpart, hpost⟩ := partition_spec (V := byteView compar hsmall) hcmp hn
          hlen (by omega) hr (.inr ⟨0, r - 1, hpair⟩)
        have hmr := hpost.m_le_r
        have hm := hpost.m_pos
        exact .call (by omega) hpart hpost (ih (m - 1) (by omega) hpost.valid (by omega))

end NoBytes

/-! ### The whole array -/

/-- The elements of the array. -/
def elements (size nmemb : ℕ) (base : List (BitVec 8)) : List (Elem size) :=
  (List.range nmemb).map (elemOf size base)

section
variable {size nmemb : ℕ} {compar : Elem size → Elem size → ℤ} {base : List (BitVec 8)}

/-- A sorted array, as a list of elements. -/
theorem SortsPart.elements {hsmall : nmemb * size < 4294967296} {base' : List (BitVec 8)}
    (h : SortsPart (byteView compar hsmall) base base' 0 nmemb) :
    base'.length = nmemb * size ∧ (elements size nmemb base').Perm (elements size nmemb base) ∧
      (elements size nmemb base').Pairwise fun a b => compar a b ≤ 0 :=
  ⟨h.valid, h.rearranged.perm, h.sorted.pairwise⟩

/-- **`rt_qsort` sorts** exactly when there is nothing to do or each left call finds an
exchange pair. -/
theorem rtQsort_sorts_iff (hcmp : PreorderCmp compar) (hnmemb : nmemb < 0x7FFFFFFF)
    (hsize : size < 0x7FFFFFFF) (hlen : base.length = nmemb * size)
    (hsmall : nmemb * size < 2 ^ 32) :
    (∃ fuel base', rtQsort fuel base nmemb size compar = some base' ∧
        base'.length = base.length ∧
        (elements size nmemb base').Perm (elements size nmemb base) ∧
        (elements size nmemb base').Pairwise fun a b => compar a b ≤ 0) ↔
      nmemb ≤ 1 ∨ size = 0 ∨
        LeftCallsMeet (byteOps size compar) compar (elemOf size) base (nmemb - 1) := by
  have hguard : ¬ (0x7FFFFFFF ≤ nmemb ∨ 0x7FFFFFFF ≤ size) := by omega
  let V := byteView compar hsmall
  constructor
  · rintro ⟨fuel, base', hsort, -⟩
    by_cases hone : nmemb ≤ 1
    · exact .inl hone
    · by_cases hzero : size = 0
      · exact .inr (.inl hzero)
      · rw [rtQsort, if_neg hguard, if_pos (Nat.lt_of_not_le hone)] at hsort
        refine .inr (.inr (leftCallsMeet_of_quicksort (V := V) hcmp (by omega) ?_ hlen (by omega)
          hsort))
        intro arr a hv
        exact exch_below (by rw [show arr.length = nmemb * size from hv]; exact hsmall)
          (Nat.pos_of_ne_zero hzero) (by omega) a
  · intro hcond
    rw [hlen]
    by_cases hone : nmemb ≤ 1
    · refine ⟨0, base, ?_, (SortsPart.refl (V := V) (l := 0) hlen hone).elements⟩
      rw [rtQsort, if_neg hguard, if_neg (Nat.not_lt_of_le hone)]
    · have hcalls : LeftCalls V base (nmemb - 1) := by
        rcases hcond with h | rfl | hmeet
        · exact absurd h hone
        · exact leftCalls_no_bytes hcmp (by omega) hsmall hlen (by omega)
        · exact hmeet.leftCalls (V := V) hcmp (by omega) hlen (by omega)
      obtain ⟨base', hsort, h⟩ := quicksort_sorts_of_leftCalls hcmp (by omega) hlen hcalls
        (by omega) (show nmemb - 1 + 1 < nmemb + 1 by omega)
      rw [Nat.sub_add_cancel (by omega)] at h
      refine ⟨nmemb + 1, base', ?_, h.elements⟩
      rw [rtQsort, if_neg hguard, if_pos (Nat.lt_of_not_le hone)]
      exact hsort

end

/-! ### One-byte elements -/

/-- A comparator of one-byte elements by their values. -/
def byteOrder (a b : Elem 1) : ℤ :=
  (a 0).toNat - (b 0).toNat

theorem byteOrder_preorder : PreorderCmp byteOrder := by
  constructor
  · intro a b
    unfold byteOrder
    omega
  · intro a b c
    unfold byteOrder
    omega

/-- Three elements of which the last two are equal are sorted. -/
theorem rtQsort_three_elements :
    ∃ fuel base', rtQsort fuel [2, 1, 1] 3 1 byteOrder = some base' ∧
      base'.length = [(2 : BitVec 8), 1, 1].length ∧
      (elements 1 3 base').Perm (elements 1 3 [2, 1, 1]) ∧
      (elements 1 3 base').Pairwise fun a b => byteOrder a b ≤ 0 := by
  have hmeet : LeftCallsMeet (byteOps 1 byteOrder) byteOrder (elemOf 1) [2, 1, 1] 2 := by
    have hpart : partition (byteOps 1 byteOrder) [2, 1, 1] 0 2 = some ([1, 1, 2], 0, 2) := rfl
    refine .call Nat.zero_lt_two ⟨0, 1, ?_⟩ hpart (.single _)
    exact ⟨by decide, by decide, by decide, by decide, by decide, by decide⟩
  exact (rtQsort_sorts_iff byteOrder_preorder (by decide) (by decide) rfl (by decide)).mpr
    (.inr (.inr hmeet))

/-- Two elements in order are not: `p` ends below zero. -/
theorem rtQsort_two_elements :
    PreorderCmp byteOrder ∧ ∀ fuel, rtQsort fuel [1, 2] 2 1 byteOrder = none := by
  refine ⟨byteOrder_preorder, fun fuel => ?_⟩
  cases hsort : rtQsort fuel [1, 2] 2 1 byteOrder with
  | none => rfl
  | some base' =>
      have hmeet := leftCallsMeet_of_quicksort
        (V := byteView (n := 2) byteOrder (by decide)) byteOrder_preorder (by decide)
        (fun arr a hv => exch_below (by rw [show arr.length = 2 * 1 from hv]; decide) Nat.one_pos
          (by decide) a) (show [(1 : BitVec 8), 2].length = 2 * 1 from rfl) (by decide) hsort
      cases hmeet with
      | call _ hpair _ _ =>
          obtain ⟨x, y, hpair⟩ := hpair
          have := hpair.lt
          have := hpair.right
          omega

end RtBoot
