import Mathlib.Data.List.Sort
import RtBoot.Leb128
import RtBoot.Machine

/-!
# The Relocation Table Generator

The host tool `mips-relocs` collects the `R_MIPS_32` relocations of the linked image, sorts
them by offset with `qsort`, replaces each offset by its distance from the one before, and
writes type and distance (in words) of each as variable-length integers, with a
terminating zero, into the `.reltable` section.

Offsets are 64-bit words; the comparator returns their difference cut to an `int`. The
distances are formed in place, from the last relocation down to the second, so that each
step still finds the offset of its predecessor. `qsort` is the C library's: the model
takes any function that sorts by a comparator that is consistent on its input
(`SortsConsistently`).

## Main results

* `compareRelocs_consistent`: the comparator is consistent on offsets below `2 ^ 31`.
* `deltaLoop_eq`: the loop leaves the distances.
* `relTable_eq`: the table of a non-empty list of relocations with distinct offsets is the
  encoding of the distances of the sorted list.
-/

namespace RtBoot

/-- `R_MIPS_NONE`. -/
def rMipsNone : ℕ :=
  0

/-- `R_MIPS_32`. -/
def rMips32 : ℕ :=
  2

/-- `struct mips_reloc`: the type is a byte and the offset a 64-bit word. -/
structure MipsReloc where
  type : ℕ
  offset : ℕ
  deriving DecidableEq, Repr

/-- `compare_relocs`: the difference of the offsets, as an `int`. -/
def compareRelocs (a b : MipsReloc) : ℤ :=
  i32 (u64 ((a.offset : ℤ) - b.offset))

/-- The loop that makes offsets relative to their predecessors, from position `i` down to
position 1. An access outside the array is `none`. -/
def deltaLoop : ℕ → List MipsReloc → Option (List MipsReloc)
  | 0, relocs => some relocs
  | i + 1, relocs =>
      match relocs[i + 1]?, relocs[i]? with
      | some r, some p =>
          deltaLoop i (relocs.set (i + 1) { r with offset := u64 ((r.offset : ℤ) - p.offset) })
      | _, _ => none

/-- `output_uint`: the bytes it writes. -/
def outputUint (val : ℕ) : List (BitVec 8) :=
  let tmp := val &&& 0x7F
  let rest := val >>> 7
  if rest ≠ 0 then BitVec.ofNat 8 (tmp ||| 1 <<< 7) :: outputUint rest
  else [BitVec.ofNat 8 (tmp ||| 0 <<< 7)]
termination_by val
decreasing_by
  rw [Nat.shiftRight_eq_div_pow]
  omega

/-- The bytes written to the section: each relocation, then the terminator. -/
def emitRelocs (relocs : List MipsReloc) : List (BitVec 8) :=
  (relocs.flatMap fun r => outputUint r.type ++ outputUint (r.offset >>> 2)) ++
    outputUint rMipsNone

/-- The C library's `qsort`: a comparator and an array, to the sorted array. -/
abbrev Qsort : Type :=
  (MipsReloc → MipsReloc → ℤ) → List MipsReloc → List MipsReloc

/-- The part of `main` that sorts, forms distances and emits the table. The index of the
distance loop is an `unsigned int`. -/
def relTable (qsort : Qsort) (relocs : List MipsReloc) : Option (List (BitVec 8)) :=
  let relocs := qsort compareRelocs relocs
  (deltaLoop (u32 ((relocs.length : ℤ) - 1)) relocs).map emitRelocs

/-! ### Sorting -/

/-- The comparator orders the elements of the list: comparing the other way round gives
the opposite sign, and "not greater" is transitive. -/
structure ConsistentOn {α : Type*} (cmp : α → α → ℤ) (l : List α) : Prop where
  opposite : ∀ a ∈ l, ∀ b ∈ l, cmp a b < 0 ↔ 0 < cmp b a
  trans : ∀ a ∈ l, ∀ b ∈ l, ∀ c ∈ l, cmp a b ≤ 0 → cmp b c ≤ 0 → cmp a c ≤ 0

/-- What the C library promises of `qsort`: an array on which the comparator is consistent
is permuted into ascending order. -/
def SortsConsistently (qsort : Qsort) : Prop :=
  ∀ cmp l, ConsistentOn cmp l →
    (qsort cmp l).Perm l ∧ (qsort cmp l).Pairwise fun a b => cmp a b ≤ 0

/-- A sorting function that keeps this promise. -/
def insertionQsort : Qsort := fun cmp l =>
  (l.attach.insertionSort fun a b => cmp a.1 b.1 ≤ 0).map Subtype.val

theorem insertionQsort_sorts : SortsConsistently insertionQsort := by
  intro cmp l h
  have htotal : Std.Total fun a b : { x // x ∈ l } => cmp a.1 b.1 ≤ 0 :=
    ⟨fun a b => by
      have := h.opposite b.1 b.2 a.1 a.2
      show cmp a.1 b.1 ≤ 0 ∨ cmp b.1 a.1 ≤ 0
      omega⟩
  have htrans : IsTrans _ fun a b : { x // x ∈ l } => cmp a.1 b.1 ≤ 0 :=
    ⟨fun a b c => h.trans a.1 a.2 b.1 b.2 c.1 c.2⟩
  constructor
  · have := (List.perm_insertionSort (fun a b : { x // x ∈ l } => cmp a.1 b.1 ≤ 0) l.attach).map
      Subtype.val
    rwa [List.attach_map_subtype_val] at this
  · rw [insertionQsort, List.pairwise_map]
    exact List.pairwise_insertionSort _ _

/-- Below `2 ^ 31` the cut to an `int` loses nothing. -/
theorem compareRelocs_eq {a b : MipsReloc} (ha : a.offset < 2 ^ 31) (hb : b.offset < 2 ^ 31) :
    compareRelocs a b = (a.offset : ℤ) - b.offset := by
  unfold compareRelocs i32 u64
  rw [Int.bmod_def]
  split <;> omega

variable {relocs rs : List MipsReloc}

/-- **The comparator is consistent** on relocations with offsets below `2 ^ 31`. -/
theorem compareRelocs_consistent
    (h : ∀ r ∈ relocs, r.offset < 2 ^ 31) : ConsistentOn compareRelocs relocs := by
  constructor
  · intro a ha b hb
    rw [compareRelocs_eq (h a ha) (h b hb), compareRelocs_eq (h b hb) (h a ha)]
    omega
  · intro a ha b hb c hc
    rw [compareRelocs_eq (h a ha) (h b hb), compareRelocs_eq (h b hb) (h c hc),
      compareRelocs_eq (h a ha) (h c hc)]
    omega

/-- Sorting relocations with distinct offsets below `2 ^ 31` puts the offsets in strictly
ascending order. -/
theorem pairwise_qsort {qsort : Qsort} (hq : SortsConsistently qsort)
    (h : ∀ r ∈ relocs, r.offset < 2 ^ 31) (hdistinct : (relocs.map MipsReloc.offset).Nodup) :
    (qsort compareRelocs relocs).Pairwise fun a b => a.offset < b.offset := by
  obtain ⟨hperm, hsorted⟩ := hq compareRelocs relocs (compareRelocs_consistent h)
  have hnodup : ((qsort compareRelocs relocs).map MipsReloc.offset).Nodup :=
    (hperm.map MipsReloc.offset).nodup_iff.mpr hdistinct
  rw [List.Nodup, List.pairwise_map] at hnodup
  refine (hsorted.and hnodup).imp_of_mem ?_
  intro a b ha hb hab
  have ha' := h a (hperm.mem_iff.mp ha)
  have hb' := h b (hperm.mem_iff.mp hb)
  have hle := hab.1
  rw [compareRelocs_eq ha' hb'] at hle
  have := hab.2
  omega

/-! ### Distances -/

/-- The distances of the offsets from one another, the first from `p`. -/
def deltaFrom : ℕ → List MipsReloc → List MipsReloc
  | _, [] => []
  | p, r :: rs => { r with offset := r.offset - p } :: deltaFrom r.offset rs

@[simp] theorem length_deltaFrom (p : ℕ) (rs : List MipsReloc) :
    (deltaFrom p rs).length = rs.length := by
  induction rs generalizing p with
  | nil => rfl
  | cons r rs ih => simp [deltaFrom, ih]

theorem deltaFrom_getElem?_zero (rs : List MipsReloc) : (deltaFrom 0 rs)[0]? = rs[0]? := by
  cases rs with
  | nil => rfl
  | cons r rs => rfl

theorem deltaFrom_getElem?_succ {p i : ℕ} {a b : MipsReloc}
    (ha : rs[i]? = some a) (hb : rs[i + 1]? = some b) :
    (deltaFrom p rs)[i + 1]? = some { b with offset := b.offset - a.offset } := by
  induction rs generalizing p i with
  | nil => simp at ha
  | cons r rs ih =>
      cases i with
      | zero =>
          obtain rfl : r = a := by simpa using ha
          cases rs with
          | nil => simp at hb
          | cons r' rs =>
              obtain rfl : r' = b := by simpa using hb
              rfl
      | succ i => exact ih (by simpa using ha) (by simpa using hb)

/-- The loop in mid-way: positions up to `i` hold offsets and those behind it distances. -/
theorem deltaLoop_eq_of_partial
    (hsorted : rs.Pairwise fun a b => a.offset < b.offset) (hmax : ∀ r ∈ rs, r.offset < 2 ^ 31)
    {i : ℕ} (hi : i < rs.length)
    (hlow : ∀ j ≤ i, relocs[j]? = rs[j]?) (hhigh : ∀ j > i, relocs[j]? = (deltaFrom 0 rs)[j]?) :
    deltaLoop i relocs = some (deltaFrom 0 rs) := by
  induction i generalizing relocs with
  | zero =>
      rw [deltaLoop]
      congr 1
      refine List.ext_getElem? ?_
      intro j
      rcases Nat.eq_zero_or_pos j with rfl | hj
      · rw [hlow 0 (Nat.le_refl 0), deltaFrom_getElem?_zero]
      · exact hhigh j hj
  | succ i ih =>
      have hp : rs[i]? = some rs[i] := List.getElem?_eq_getElem (by omega)
      have hr : rs[i + 1]? = some rs[i + 1] := List.getElem?_eq_getElem hi
      have hlt : rs[i].offset < rs[i + 1].offset :=
        List.pairwise_iff_getElem.mp hsorted i (i + 1) (by omega) hi (by omega)
      have hr31 := hmax _ (List.getElem_mem hi)
      -- the predecessor is still an offset, so the difference is the distance
      have hdist : u64 ((rs[i + 1].offset : ℤ) - rs[i].offset) =
          rs[i + 1].offset - rs[i].offset := by
        unfold u64
        omega
      have hr' := (hlow (i + 1) (Nat.le_refl _)).trans hr
      rw [deltaLoop, hr', (hlow i (by omega)).trans hp]
      refine ih (by omega) ?_ ?_
      · intro j hj
        rw [List.getElem?_set_ne (by omega), hlow j (by omega)]
      · intro j hj
        by_cases hj' : j = i + 1
        · subst hj'
          rw [List.getElem?_set_self (List.getElem?_eq_some_iff.mp hr').1, hdist,
            deltaFrom_getElem?_succ hp hr]
        · rw [List.getElem?_set_ne (by omega), hhigh j (by omega)]

/-- **The loop leaves the distances** of a sorted array. -/
theorem deltaLoop_eq (hne : rs ≠ []) (hsorted : rs.Pairwise fun a b => a.offset < b.offset)
    (hmax : ∀ r ∈ rs, r.offset < 2 ^ 31) :
    deltaLoop (rs.length - 1) rs = some (deltaFrom 0 rs) := by
  have hpos : 0 < rs.length := List.length_pos_iff.mpr hne
  refine deltaLoop_eq_of_partial hsorted hmax (by omega) (fun _ _ => rfl) ?_
  intro j hj
  rw [List.getElem?_eq_none (by omega), List.getElem?_eq_none (by rw [length_deltaFrom]; omega)]

/-! ### The table -/

/-- `output_uint` writes the variable-length code of its argument. -/
theorem outputUint_eq_encode (val : ℕ) : outputUint val = Leb128.encode val := by
  induction val using Nat.strong_induction_on with
  | _ val ih =>
      have hlow : val &&& 0x7F = val % 128 := Nat.and_two_pow_sub_one_eq_mod val 7
      have hrest : val >>> 7 = val / 128 := Nat.shiftRight_eq_div_pow val 7
      have htop : val % 128 ||| 1 <<< 7 = val % 128 + 128 := by
        rw [Nat.or_comm, ← Nat.shiftLeft_add_eq_or_of_lt (by omega : val % 128 < 2 ^ 7)]
        omega
      rw [outputUint, Leb128.encode, hlow, hrest, htop]
      by_cases hzero : val / 128 = 0
      · rw [if_neg (by simpa using hzero), if_pos hzero, Nat.zero_shiftLeft, Nat.or_zero,
          Nat.mod_eq_of_lt (by omega)]
      · rw [if_pos hzero, if_neg hzero, ih _ (by omega)]

theorem emitRelocs_cons (r : MipsReloc) (rs : List MipsReloc) :
    emitRelocs (r :: rs) =
      outputUint r.type ++ (outputUint (r.offset >>> 2) ++ emitRelocs rs) := by
  simp [emitRelocs]

/-- There are at most `2 ^ 31` distinct offsets below `2 ^ 31`. -/
theorem length_le_of_offsets (hmax : ∀ r ∈ rs, r.offset < 2 ^ 31)
    (hdistinct : (rs.map MipsReloc.offset).Nodup) : rs.length ≤ 2 ^ 31 := by
  have hsub : rs.map MipsReloc.offset ⊆ List.range (2 ^ 31) := by
    intro x hx
    obtain ⟨r, hr, rfl⟩ := List.mem_map.mp hx
    exact List.mem_range.mpr (hmax r hr)
  have := (hdistinct.subperm hsub).length_le
  rwa [List.length_map, List.length_range] at this

/-- **The table** of a non-empty list of relocations with distinct offsets below `2 ^ 31`
encodes the distances of the sorted list. -/
theorem relTable_eq {qsort : Qsort} (hq : SortsConsistently qsort)
    (hne : relocs ≠ []) (hmax : ∀ r ∈ relocs, r.offset < 2 ^ 31)
    (hdistinct : (relocs.map MipsReloc.offset).Nodup) :
    relTable qsort relocs = some (emitRelocs (deltaFrom 0 (qsort compareRelocs relocs))) := by
  have hperm := (hq compareRelocs relocs (compareRelocs_consistent hmax)).1
  have hne' : qsort compareRelocs relocs ≠ [] := by
    intro h
    exact hne (List.perm_nil.mp (h ▸ hperm.symm))
  have hmax' : ∀ r ∈ qsort compareRelocs relocs, r.offset < 2 ^ 31 := by
    intro r hr
    exact hmax r (hperm.mem_iff.mp hr)
  have hlen : (qsort compareRelocs relocs).length ≤ 2 ^ 31 := by
    rw [hperm.length_eq]
    exact length_le_of_offsets hmax hdistinct
  have hpos : 0 < (qsort compareRelocs relocs).length := List.length_pos_iff.mpr hne'
  have hindex : u32 (((qsort compareRelocs relocs).length : ℤ) - 1) =
      (qsort compareRelocs relocs).length - 1 := by
    unfold u32
    omega
  rw [relTable, hindex, deltaLoop_eq hne' (pairwise_qsort hq hmax hdistinct) hmax', Option.map_some]

end RtBoot
