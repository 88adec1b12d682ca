import Mathlib.Algebra.Group.End
import Mathlib.Data.List.Nodup
import Mathlib.Data.List.Perm.Subperm
import Mathlib.Tactic.Common

/-!
# Rearranging Ranges of an Array

An array is seen as a function from positions to values. Sorting in place rearranges the
values of a range of positions and touches nothing else:

* `Rearranged lo hi f f'`: `f'` holds the values of `f`, rearranged within the positions from
  `lo` up to `hi`;
* `SortedOn cmp lo hi f`: on that range the values ascend by the comparator `cmp`, a function
  to the integers whose sign is the result, as C libraries have it;
* `Gathered`: the invariant of swapping marked positions with their mirror images.

A comparator is a total preorder when comparing the other way round gives the opposite sign
and "not greater" is transitive (`PreorderCmp`).

## Main results

* `Rearranged.forall`: what holds of all values of a range, holds after rearranging it.
* `Rearranged.perm`: the lists of the values are permutations of each other.
* `sortedOn_of_parts`: a range that is cut into values not above, equal to and not below a
  pivot is sorted once its outer parts are.
* `Gathered.swap`: one more position swapped with its mirror image.
-/

namespace RtBoot

variable {α : Type*}

/-- The comparator is a total preorder. -/
structure PreorderCmp (cmp : α → α → ℤ) : Prop where
  opposite : ∀ a b, cmp a b < 0 ↔ 0 < cmp b a
  trans : ∀ a b c, cmp a b ≤ 0 → cmp b c ≤ 0 → cmp a c ≤ 0

namespace PreorderCmp
variable {cmp : α → α → ℤ}

theorem le_comm (h : PreorderCmp cmp) {a b : α} : cmp a b ≤ 0 ↔ 0 ≤ cmp b a := by
  have := h.opposite b a
  omega

theorem eq_comm (h : PreorderCmp cmp) {a b : α} : cmp a b = 0 ↔ cmp b a = 0 := by
  have := h.opposite a b
  have := h.opposite b a
  omega

theorem refl (h : PreorderCmp cmp) (a : α) : cmp a a = 0 := by
  have := h.opposite a a
  omega

/-- Values on the two sides of a third. -/
theorem le_of_sides (h : PreorderCmp cmp) {a b v : α} (ha : cmp a v ≤ 0) (hb : 0 ≤ cmp b v) :
    cmp a b ≤ 0 :=
  h.trans a v b ha (h.le_comm.mpr hb)

end PreorderCmp

/-! ### Rearranged ranges -/

/-- `f'` holds the values of `f`, rearranged within the positions from `lo` up to `hi`. -/
def Rearranged (lo hi : ℕ) (f f' : ℕ → α) : Prop :=
  ∃ π : Equiv.Perm ℕ, (∀ k, ¬ (lo ≤ k ∧ k < hi) → π k = k) ∧ f' = f ∘ π

section
variable {lo hi : ℕ} {f f' f'' : ℕ → α}

theorem Rearranged.refl (lo hi : ℕ) (f : ℕ → α) : Rearranged lo hi f f :=
  ⟨1, fun _ _ => rfl, rfl⟩

/-- Rearrangements compose. -/
theorem Rearranged.trans (h : Rearranged lo hi f f') (h' : Rearranged lo hi f' f'') :
    Rearranged lo hi f f'' := by
  obtain ⟨π, hπ, rfl⟩ := h
  obtain ⟨π', hπ', rfl⟩ := h'
  refine ⟨π * π', fun k hk => ?_, rfl⟩
  rw [Equiv.Perm.mul_apply, hπ' k hk, hπ k hk]

theorem Rearranged.mono {lo' hi' : ℕ} (h : Rearranged lo hi f f') (hlo : lo' ≤ lo)
    (hhi : hi ≤ hi') : Rearranged lo' hi' f f' := by
  obtain ⟨π, hπ, rfl⟩ := h
  exact ⟨π, fun k hk => hπ k (by omega), rfl⟩

/-- Swapping two positions of the range. -/
theorem rearranged_swap {a b : ℕ} (f : ℕ → α) (ha : lo ≤ a ∧ a < hi) (hb : lo ≤ b ∧ b < hi) :
    Rearranged lo hi f (f ∘ Equiv.swap a b) := by
  refine ⟨Equiv.swap a b, fun k hk => ?_, rfl⟩
  refine Equiv.swap_apply_of_ne_of_ne ?_ ?_
  · rintro rfl
    exact hk ha
  · rintro rfl
    exact hk hb

/-- Outside the range nothing moves. -/
theorem Rearranged.outside (h : Rearranged lo hi f f') {k : ℕ} (hk : ¬ (lo ≤ k ∧ k < hi)) :
    f' k = f k := by
  obtain ⟨π, hπ, rfl⟩ := h
  rw [Function.comp_apply, hπ k hk]

/-- A permutation that moves nothing outside a range moves nothing out of it. -/
theorem perm_mem_range {π : Equiv.Perm ℕ} (hπ : ∀ k, ¬ (lo ≤ k ∧ k < hi) → π k = k) {k : ℕ}
    (hk : lo ≤ k ∧ k < hi) : lo ≤ π k ∧ π k < hi := by
  by_contra hout
  have hfix : π k = k := π.injective (hπ _ hout)
  exact hout (by rwa [hfix])

/-- What holds of all values of the range, holds of them rearranged. -/
theorem Rearranged.forall {P : α → Prop} (h : Rearranged lo hi f f')
    (hP : ∀ k, lo ≤ k → k < hi → P (f k)) : ∀ k, lo ≤ k → k < hi → P (f' k) := by
  obtain ⟨π, hπ, rfl⟩ := h
  intro k hlo hhi
  obtain ⟨hlo', hhi'⟩ := perm_mem_range hπ ⟨hlo, hhi⟩
  exact hP _ hlo' hhi'

/-- The values from the start of the array, as lists, are permutations of each other. -/
theorem Rearranged.perm {n : ℕ} (h : Rearranged 0 n f f') :
    ((List.range n).map f').Perm ((List.range n).map f) := by
  obtain ⟨π, hπ, rfl⟩ := h
  have hnodup : ((List.range n).map π).Nodup := List.nodup_range.map π.injective
  have hsub : (List.range n).map π ⊆ List.range n := by
    intro x hx
    obtain ⟨k, hk, rfl⟩ := List.mem_map.mp hx
    exact List.mem_range.mpr (perm_mem_range hπ ⟨Nat.zero_le k, List.mem_range.mp hk⟩).2
  have hperm : ((List.range n).map π).Perm (List.range n) :=
    (List.subperm_of_subset hnodup hsub).perm_of_length_le (by rw [List.length_map])
  have := hperm.map f
  rwa [List.map_map] at this

end

/-! ### Sorted ranges -/

/-- On the positions from `lo` up to `hi` the values ascend. -/
def SortedOn (cmp : α → α → ℤ) (lo hi : ℕ) (f : ℕ → α) : Prop :=
  ∀ x y, lo ≤ x → x < y → y < hi → cmp (f x) (f y) ≤ 0

theorem SortedOn.pairwise {cmp : α → α → ℤ} {n : ℕ} {f : ℕ → α} (h : SortedOn cmp 0 n f) :
    ((List.range n).map f).Pairwise fun a b => cmp a b ≤ 0 := by
  rw [List.pairwise_map]
  refine List.pairwise_lt_range.imp_of_mem ?_
  intro x y _ hy hxy
  exact h x y (Nat.zero_le x) hxy (List.mem_range.mp hy)

/-- A range cut into values not above, equal to and not below a pivot: once the outer parts
are sorted, one after the other, the whole range is. -/
theorem sortedOn_of_parts {cmp : α → α → ℤ} (hcmp : PreorderCmp cmp) {lo m₁ m₂ hi : ℕ}
    {f f₁ f₂ : ℕ → α} {v : α} (hm : m₁ ≤ m₂) (hleft : ∀ k, lo ≤ k → k < m₁ → cmp (f k) v ≤ 0)
    (hmid : ∀ k, m₁ ≤ k → k < m₂ → cmp (f k) v = 0)
    (hright : ∀ k, m₂ ≤ k → k < hi → 0 ≤ cmp (f k) v)
    (h₁ : Rearranged lo m₁ f f₁) (s₁ : SortedOn cmp lo m₁ f₁)
    (h₂ : Rearranged m₂ hi f₁ f₂) (s₂ : SortedOn cmp m₂ hi f₂) : SortedOn cmp lo hi f₂ := by
  -- where the values of the three parts are in the end
  have hleft₂ : ∀ k, lo ≤ k → k < m₁ → f₂ k = f₁ k ∧ cmp (f₂ k) v ≤ 0 := by
    intro k hlo hlt
    have heq : f₂ k = f₁ k := h₂.outside (by omega)
    exact ⟨heq, heq ▸ h₁.forall (P := fun a => cmp a v ≤ 0) hleft k hlo hlt⟩
  have hmid₂ : ∀ k, m₁ ≤ k → k < m₂ → cmp (f₂ k) v = 0 := by
    intro k hle hlt
    rw [h₂.outside (by omega), h₁.outside (by omega)]
    exact hmid k hle hlt
  have hright₁ : ∀ k, m₂ ≤ k → k < hi → 0 ≤ cmp (f₁ k) v := by
    intro k hle hlt
    rw [h₁.outside (by omega)]
    exact hright k hle hlt
  have hright₂ := h₂.forall (P := fun a => 0 ≤ cmp a v) hright₁
  have hbelow : ∀ k, lo ≤ k → k < m₂ → cmp (f₂ k) v ≤ 0 := by
    intro k hlo hlt
    by_cases hk : k < m₁
    · exact (hleft₂ k hlo hk).2
    · exact (hmid₂ k (by omega) hlt).le
  have habove : ∀ k, m₁ ≤ k → k < hi → 0 ≤ cmp (f₂ k) v := by
    intro k hle hlt
    by_cases hk : k < m₂
    · exact (hmid₂ k hle hk).ge
    · exact hright₂ k (by omega) hlt
  intro x y hlo hxy hhi
  by_cases hy : y < m₁
  · rw [(hleft₂ x hlo (by omega)).1, (hleft₂ y (by omega) hy).1]
    exact s₁ x y hlo hxy hy
  · by_cases hx : m₂ ≤ x
    · exact s₂ x y hx hxy hhi
    · exact hcmp.le_of_sides (hbelow x hlo (by omega)) (habove y (by omega) hhi)

/-! ### Gathering marked positions -/

/-- While positions of the set `S` are swapped with their images under the mirror `c`, those
in `K` being done: the values at `S` had the property `P` to begin with, and now the
positions still to be swapped have it, the images of those done have it, and so has a
position of `S` whose image is in `S` as well. -/
structure Gathered (P : α → Prop) (S : ℕ → Prop) (c : ℕ → ℕ) (K : ℕ → Prop) (f : ℕ → α) :
    Prop where
  todo : ∀ x, S x → ¬ K x → P (f x)
  done : ∀ x, S x → K x → P (f (c x))
  both : ∀ x, S x → S (c x) → P (f x)

theorem gathered_start {P : α → Prop} {S K : ℕ → Prop} {c : ℕ → ℕ} {f : ℕ → α}
    (hK : ∀ x, S x → ¬ K x) (h : ∀ x, S x → P (f x)) : Gathered P S c K f :=
  ⟨fun x hx _ => h x hx, fun x hx hKx => absurd hKx (hK x hx), fun x hx _ => h x hx⟩

/-- Swapping one more position with its image. -/
theorem Gathered.swap {P : α → Prop} {S K : ℕ → Prop} {c : ℕ → ℕ} {f : ℕ → α}
    (h : Gathered P S c K f) (hc : ∀ x, S x → c (c x) = x) {k : ℕ} (hk : S k) (hK : ¬ K k) :
    Gathered P S c (fun x => K x ∨ x = k) (f ∘ Equiv.swap k (c k)) := by
  have hat : (f ∘ Equiv.swap k (c k)) k = f (c k) := by
    rw [Function.comp_apply, Equiv.swap_apply_left]
  have himage : (f ∘ Equiv.swap k (c k)) (c k) = f k := by
    rw [Function.comp_apply, Equiv.swap_apply_right]
  have hother : ∀ x, x ≠ k → x ≠ c k → (f ∘ Equiv.swap k (c k)) x = f x := by
    intro x hne hne'
    rw [Function.comp_apply, Equiv.swap_apply_of_ne_of_ne hne hne']
  -- when the image of `k` is marked too, its value has the property
  have hback : S (c k) → P (f (c k)) := fun hS => h.both _ hS (by rwa [hc k hk])
  refine ⟨?_, ?_, ?_⟩
  · intro x hx hnot
    by_cases hck : x = c k
    · rw [hck, himage]
      exact h.todo k hk hK
    · rw [hother x (fun hxk => hnot (.inr hxk)) hck]
      exact h.todo x hx fun hKx => hnot (.inl hKx)
  · rintro x hx (hKx | rfl)
    · by_cases hxk : c x = k
      · have hck : c k = x := by rw [← hxk, hc x hx]
        rw [hxk, hat]
        exact hback (by rwa [hck])
      · have hne : c x ≠ c k := by
          intro heq
          have : x = k := by rw [← hc x hx, heq, hc k hk]
          exact hK (this ▸ hKx)
        rw [hother _ hxk hne]
        exact h.done x hx hKx
    · rw [himage]
      exact h.todo x hk hK
  · intro x hx hcx
    by_cases hxk : x = k
    · subst hxk
      rw [hat]
      exact hback hcx
    · by_cases hck : x = c k
      · rw [hck, himage]
        exact h.todo k hk hK
      · rw [hother x hxk hck]
        exact h.both x hx hcx

end RtBoot
