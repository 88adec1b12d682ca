import RtBoot.Machine
import RtBoot.Rearrange

/-!
# The Library's `rt_qsort`

`rt_qsort` is a quicksort that divides a part of the array into elements below, equal to and
above a pivot. The pivot is the last element; two indices run towards each other from the
ends, exchange elements that are on the wrong side, and collect elements equal to the pivot
at the two ends of the part, from where they are moved to the middle at the end. Indices are
of type `rt_size_t`, 32 bits without sign, and two of them start one below the part.

The array is an object of `nmemb * size` bytes. An element is addressed by the offset
`index * size`, computed modulo `2 ^ 32`, and an access outside the object is `none`. The
functions that move indices know the array only by its operations (`ArrayOps`): exchange two
elements, compare two elements. `byteOps` is the pair of operations the C code has.

A loop over one index has come back to where it started after `2 ^ 32` rounds, so that many
rounds stand for a loop without end. Only the recursion of `quicksort` needs fuel.

## Main results

* `exch_spec`: exchanging two elements of the array, and `exch_below`: an exchange with the
  element one below the array is an access outside it.
* `byteView`: the bytes as an array of elements.
-/

namespace RtBoot

/-! ### Indices -/

/-- `x + 1` as an `rt_size_t`. -/
def succ32 (x : ℕ) : ℕ :=
  (x + 1) % 4294967296

/-- `x - 1` as an `rt_size_t`. -/
def pred32 (x : ℕ) : ℕ :=
  (x + 4294967295) % 4294967296

theorem succ32_of_lt {x : ℕ} (h : x < 4294967295) : succ32 x = x + 1 :=
  Nat.mod_eq_of_lt (by omega)

theorem pred32_of_pos {x : ℕ} (h : 0 < x) (hx : x < 4294967296) : pred32 x = x - 1 := by
  unfold pred32
  omega

theorem pred32_zero : pred32 0 = 4294967295 :=
  rfl

theorem succ32_pred32 {x : ℕ} (h : x < 4294967296) : succ32 (pred32 x) = x := by
  unfold succ32 pred32
  omega

/-- The rounds after which a loop over an index has come round. -/
def indexRounds : ℕ :=
  4294967296

theorem lt_indexRounds {x : ℕ} (h : x < 4294967296) : x < indexRounds :=
  h

/-! ### The sorting functions -/

/-- What the sorting functions do with the array: exchange two elements, compare two. -/
structure ArrayOps (σ : Type) where
  exch : σ → ℕ → ℕ → Option σ
  compar : σ → ℕ → ℕ → Option ℤ

section Sorting
variable {σ : Type} (ops : ArrayOps σ)

/-- `while (++i != r && compar(base+i*size,v)<0) ;` -/
def scanUp (arr : σ) (r : ℕ) : ℕ → ℕ → Option ℕ
  | 0, _ => none
  | fuel + 1, i =>
      if succ32 i ≠ r then do
        let c ← ops.compar arr (succ32 i) r
        if c < 0 then scanUp arr r fuel (succ32 i) else some (succ32 i)
      else some (succ32 i)

/-- `while (compar(v,base+(--j)*size)<0) if (j == l) break;` -/
def scanDown (arr : σ) (l r : ℕ) : ℕ → ℕ → Option ℕ
  | 0, _ => none
  | fuel + 1, j => do
      let c ← ops.compar arr r (pred32 j)
      if c < 0 then
        if pred32 j = l then some (pred32 j) else scanDown arr l r fuel (pred32 j)
      else some (pred32 j)

/-- The array and the indices of the partitioning loop. -/
structure Cursors (σ : Type) where
  arr : σ
  i : ℕ
  j : ℕ
  p : ℕ
  q : ℕ

/-- `if (compar(base+i*size,v)==0) exch(base,size,++p,i);` -/
def keepLeft (r : ℕ) (s : Cursors σ) : Option (Cursors σ) := do
  let c ← ops.compar s.arr s.i r
  if c = 0 then do
    let arr ← ops.exch s.arr (succ32 s.p) s.i
    some { s with arr := arr, p := succ32 s.p }
  else some s

/-- `if (compar(v,base+j*size)==0) exch(base,size,j,--q);` -/
def keepRight (r : ℕ) (s : Cursors σ) : Option (Cursors σ) := do
  let c ← ops.compar s.arr r s.j
  if c = 0 then do
    let arr ← ops.exch s.arr s.j (pred32 s.q)
    some { s with arr := arr, q := pred32 s.q }
  else some s

/-- The partitioning loop. -/
def partLoop (l r : ℕ) : ℕ → Cursors σ → Option (Cursors σ)
  | 0, _ => none
  | fuel + 1, s => do
      let i ← scanUp ops s.arr r indexRounds s.i
      let j ← scanDown ops s.arr l r indexRounds s.j
      if j ≤ i then some { s with i := i, j := j }
      else do
        let arr ← ops.exch s.arr i j
        let s ← keepLeft ops r { s with arr := arr, i := i, j := j }
        let s ← keepRight ops r s
        partLoop l r fuel s

/-- `for (k=l; k<p; k++, j--) exch(base,size,k,j);` -/
def moveLeft (p : ℕ) : ℕ → σ → ℕ → ℕ → Option (σ × ℕ)
  | 0, _, _, _ => none
  | fuel + 1, arr, k, j =>
      if k < p then do
        let arr ← ops.exch arr k j
        moveLeft p fuel arr (succ32 k) (pred32 j)
      else some (arr, j)

/-- `for (k=r-1; k>q; k--, i++) exch(base,size,i,k);` -/
def moveRight (q : ℕ) : ℕ → σ → ℕ → ℕ → Option (σ × ℕ)
  | 0, _, _, _ => none
  | fuel + 1, arr, k, i =>
      if q < k then do
        let arr ← ops.exch arr i k
        moveRight q fuel arr (pred32 k) (succ32 i)
      else some (arr, i)

/-- `quicksort` up to its recursive calls: the array, `j` and `i`. -/
def partition (arr : σ) (l r : ℕ) : Option (σ × ℕ × ℕ) := do
  let s ← partLoop ops l r indexRounds ⟨arr, pred32 l, r, pred32 l, r⟩
  let arr ← ops.exch s.arr s.i r
  let (arr, j) ← moveLeft ops s.p indexRounds arr l (pred32 s.i)
  let (arr, i) ← moveRight ops s.q indexRounds arr (pred32 r) (succ32 s.i)
  return (arr, j, i)

/-- `quicksort`. -/
def quicksort : ℕ → σ → ℕ → ℕ → Option σ
  | 0, _, _, _ => none
  | fuel + 1, arr, l, r =>
      if r ≤ l then some arr
      else do
        let (arr, j, i) ← partition ops arr l r
        let arr ← quicksort fuel arr l j
        quicksort fuel arr i r

end Sorting

/-! ### The array of bytes -/

/-- An element of `size` bytes. -/
abbrev Elem (size : ℕ) : Type :=
  Fin size → BitVec 8

/-- The offset of an element. -/
def offset (size index : ℕ) : ℕ :=
  index * size % 4294967296

/-- The loop of `exch` over the bytes of the two elements. -/
def exchLoop : ℕ → List (BitVec 8) → ℕ → ℕ → Option (List (BitVec 8))
  | 0, base, _, _ => some base
  | size + 1, base, x, y =>
      match base[x]?, base[y]? with
      | some bx, some b => exchLoop size ((base.set x b).set y bx) (succ32 x) (succ32 y)
      | _, _ => none

/-- `exch`. -/
def exch (size : ℕ) (base : List (BitVec 8)) (a b : ℕ) : Option (List (BitVec 8)) :=
  exchLoop size base (offset size a) (offset size b)

/-- The element at an offset. -/
def elemAt (size : ℕ) (base : List (BitVec 8)) (off : ℕ) : Option (Elem size) :=
  if off + size ≤ base.length then some fun b => base.getD (off + b) 0 else none

/-- The operations on an array of elements of `size` bytes. -/
def byteOps (size : ℕ) (compar : Elem size → Elem size → ℤ) : ArrayOps (List (BitVec 8)) where
  exch := exch size
  compar base a b := do
    let x ← elemAt size base (offset size a)
    let y ← elemAt size base (offset size b)
    some (compar x y)

/-- `rt_qsort`. -/
def rtQsort (fuel : ℕ) (base : List (BitVec 8)) (nmemb size : ℕ)
    (compar : Elem size → Elem size → ℤ) : Option (List (BitVec 8)) :=
  if 0x7FFFFFFF ≤ nmemb ∨ 0x7FFFFFFF ≤ size then some base
  else if 1 < nmemb then quicksort (byteOps size compar) fuel base 0 (nmemb - 1)
  else some base

/-! ### Exchanging elements -/

/-- The loop of `exch` exchanges the bytes of two ranges that are the same or disjoint. -/
theorem exchLoop_spec {len : ℕ} {base : List (BitVec 8)} {x y : ℕ}
    (hbase : base.length < 4294967296) (hx : x + len ≤ base.length) (hy : y + len ≤ base.length)
    (hxy : x = y ∨ x + len ≤ y ∨ y + len ≤ x) :
    ∃ base', exchLoop len base x y = some base' ∧ base'.length = base.length ∧
      (∀ b < len, base'[x + b]? = base[y + b]? ∧ base'[y + b]? = base[x + b]?) ∧
      ∀ k, ¬ (x ≤ k ∧ k < x + len) → ¬ (y ≤ k ∧ k < y + len) → base'[k]? = base[k]? := by
  induction len generalizing base x y with
  | zero =>
      exact ⟨base, rfl, rfl, fun b hb => absurd hb (Nat.not_lt_zero b), fun _ _ _ => rfl⟩
  | succ len ih =>
      have hbx : base[x]? = some base[x] := List.getElem?_eq_getElem (by omega)
      have hby : base[y]? = some base[y] := List.getElem?_eq_getElem (by omega)
      have hset : ∀ k, ((base.set x base[y]).set y base[x])[k]? =
          if y = k then base[x]? else if x = k then base[y]? else base[k]? := by
        intro k
        rw [List.getElem?_set, List.getElem?_set, List.length_set, if_pos (by omega : y < _),
          if_pos (by omega : x < _), hbx, hby]
      have hsetlen : ((base.set x base[y]).set y base[x]).length = base.length := by
        rw [List.length_set, List.length_set]
      obtain ⟨base', hloop, hlen, hmoved, hframe⟩ :=
        ih (x := x + 1) (y := y + 1) (hsetlen ▸ hbase) (by omega) (by omega) (by omega)
      rw [hsetlen] at hlen
      refine ⟨base', ?_, hlen, ?_, ?_⟩
      · rw [exchLoop, hbx, hby, succ32_of_lt (by omega), succ32_of_lt (by omega)]
        exact hloop
      · intro b hb
        cases b with
        | zero =>
            rw [Nat.add_zero, Nat.add_zero, hframe x (by omega) (by omega),
              hframe y (by omega) (by omega), hset, hset]
            refine ⟨?_, if_pos rfl⟩
            by_cases heq : y = x
            · rw [if_pos heq, heq]
            · rw [if_neg heq, if_pos rfl]
        | succ b =>
            obtain ⟨h₁, h₂⟩ := hmoved b (by omega)
            rw [hset, if_neg (by omega), if_neg (by omega)] at h₁ h₂
            rw [Nat.add_right_comm x, Nat.add_right_comm y] at h₁ h₂
            exact ⟨h₁, h₂⟩
      · intro k hkx hky
        rw [hframe k (by omega) (by omega), hset, if_neg (by omega), if_neg (by omega)]

/-- The second range of a loop that succeeds lies in the array. -/
theorem exchLoop_bound {len : ℕ} {base base' : List (BitVec 8)} {x y : ℕ}
    (h : exchLoop len base x y = some base') {b : ℕ} (hb : b < len)
    (hyb : y + b < 4294967296) : y + b < base.length := by
  induction len generalizing base x y b with
  | zero => omega
  | succ len ih =>
      rw [exchLoop] at h
      split at h
      · next bx by' hx hy =>
          have hlt := (List.getElem?_eq_some_iff.mp hy).1
          cases b with
          | zero => exact hlt
          | succ b =>
              rw [succ32_of_lt (by omega : y < _)] at h
              have := ih h (by omega : b < len) (by omega)
              rw [List.length_set, List.length_set] at this
              omega
      · cases h

/-- The element at a position. -/
def elemOf (size : ℕ) (base : List (BitVec 8)) (k : ℕ) : Elem size :=
  fun b => base.getD (k * size + b) 0

section Bytes
variable {size n : ℕ} {base : List (BitVec 8)}

/-- The elements of an array that fits the address space are where the offsets say. -/
theorem offset_bounds (hsmall : n * size < 4294967296) {a : ℕ} (ha : a < n) :
    offset size a = a * size ∧ a * size + size ≤ n * size := by
  have hle : a * size + size ≤ n * size := by
    rw [← Nat.succ_mul]
    exact Nat.mul_le_mul_right size ha
  exact ⟨Nat.mod_eq_of_lt (by omega), hle⟩

/-- Bytes of different elements are at different places. -/
theorem elem_bytes_apart {a k b : ℕ} (hne : k ≠ a) (hb : b < size) :
    ¬ (a * size ≤ k * size + b ∧ k * size + b < a * size + size) := by
  rcases Nat.lt_or_gt_of_ne hne with hlt | hgt
  · have := Nat.mul_le_mul_right size (Nat.succ_le_of_lt hlt)
    rw [Nat.succ_mul] at this
    omega
  · have := Nat.mul_le_mul_right size (Nat.succ_le_of_lt hgt)
    rw [Nat.succ_mul] at this
    omega

/-- **`exch` exchanges** two elements of the array. -/
theorem exch_spec (hlen : base.length = n * size) (hsmall : n * size < 4294967296) {a b : ℕ}
    (ha : a < n) (hb : b < n) :
    ∃ base', exch size base a b = some base' ∧ base'.length = n * size ∧
      elemOf size base' = elemOf size base ∘ Equiv.swap a b := by
  obtain ⟨hoffa, hlea⟩ := offset_bounds hsmall ha
  obtain ⟨hoffb, hleb⟩ := offset_bounds hsmall hb
  have hdisjoint : a * size = b * size ∨ a * size + size ≤ b * size ∨
      b * size + size ≤ a * size := by
    rcases Nat.lt_trichotomy a b with hlt | rfl | hgt
    · exact .inr (.inl (by rw [← Nat.succ_mul]; exact Nat.mul_le_mul_right size hlt))
    · exact .inl rfl
    · exact .inr (.inr (by rw [← Nat.succ_mul]; exact Nat.mul_le_mul_right size hgt))
  obtain ⟨base', hloop, hlen', hmoved, hframe⟩ :=
    exchLoop_spec (by omega) (show a * size + size ≤ base.length by omega) (by omega) hdisjoint
  refine ⟨base', by rw [exch, hoffa, hoffb, hloop], by omega, ?_⟩
  funext k
  rw [Function.comp_apply]
  funext t
  rw [elemOf, elemOf, List.getD_eq_getElem?_getD, List.getD_eq_getElem?_getD]
  by_cases hka : k = a
  · rw [hka, Equiv.swap_apply_left, (hmoved t t.isLt).1]
  · by_cases hkb : k = b
    · rw [hkb, Equiv.swap_apply_right, (hmoved t t.isLt).2]
    · rw [Equiv.swap_apply_of_ne_of_ne hka hkb,
        hframe _ (elem_bytes_apart hka t.isLt) (elem_bytes_apart hkb t.isLt)]

/-- An exchange with the element one below the array is an access outside it. -/
theorem exch_below (hlen : base.length < 4294967296) (hpos : 0 < size)
    (hsize : size < 4294967296) (a : ℕ) : exch size base a (pred32 0) = none := by
  have hoff : offset size (pred32 0) = 4294967296 - size := by
    rw [pred32_zero, offset]
    omega
  cases h : exch size base a (pred32 0) with
  | none => rfl
  | some base' =>
      rw [exch, hoff] at h
      have := exchLoop_bound h (by omega : size - 1 < size) (by omega)
      omega

theorem elemAt_offset (hlen : base.length = n * size) (hsmall : n * size < 4294967296) {a : ℕ}
    (ha : a < n) : elemAt size base (offset size a) = some (elemOf size base a) := by
  obtain ⟨hoff, hle⟩ := offset_bounds hsmall ha
  rw [hoff, elemAt, if_pos (by omega)]
  rfl

end Bytes

/-! ### Arrays of elements -/

/-- A state of the array that holds `n` elements, and what the operations do to them. -/
structure ArrayView {σ : Type} (ops : ArrayOps σ) {α : Type*} (cmp : α → α → ℤ) (n : ℕ) where
  Valid : σ → Prop
  elem : σ → ℕ → α
  exch_eq : ∀ {arr a b}, Valid arr → a < n → b < n →
    ∃ arr', ops.exch arr a b = some arr' ∧ Valid arr' ∧ elem arr' = elem arr ∘ Equiv.swap a b
  compar_eq : ∀ {arr a b}, Valid arr → a < n → b < n →
    ops.compar arr a b = some (cmp (elem arr a) (elem arr b))

/-- **The bytes as an array of elements.** -/
def byteView {size n : ℕ} (compar : Elem size → Elem size → ℤ) (hsmall : n * size < 4294967296) :
    ArrayView (byteOps size compar) compar n where
  Valid base := base.length = n * size
  elem := elemOf size
  exch_eq hlen ha hb := exch_spec hlen hsmall ha hb
  compar_eq hlen ha hb := by
    change (elemAt size _ (offset size _)).bind _ = _
    rw [elemAt_offset hlen hsmall ha, Option.bind_some, elemAt_offset hlen hsmall hb]
    rfl

end RtBoot
