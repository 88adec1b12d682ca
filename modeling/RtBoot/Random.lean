import RtBoot.Machine

/-!
# The Random Generator

`rt_rand_r` is the multiplicative generator with multiplier `A = 48271` modulo the prime
`M = 2 ^ 31 - 1`. The product of multiplier and seed does not fit an `int`, so the code
divides the seed by `Q = M / A` first: with `R = M % A`,

  `A * (x % Q) - R * (x / Q) = A * x - M * (x / Q)`,

both products on the left are smaller than `M`, and the result is the residue wanted or
falls short of it by `M`.

The operations on `int`s are checked: a result that does not fit is `none`. Adding `M` to a
negative difference is an unsigned operation, since `M` is unsigned.

## Main results

* `rtRandR_eq`: from a seed below `M` a call returns `A * seed % M` and leaves that as the
  seed, with nothing overflowing.
* `rtRandCalls_eq`: the closed form of any number of calls.
-/

namespace RtBoot

/-- The result of a signed operation, if it fits an `int`. -/
def checkInt (z : ℤ) : Option ℤ :=
  if -2147483648 ≤ z ∧ z ≤ 2147483647 then some z else none

theorem checkInt_of_fits {z : ℤ} (hlow : -2147483648 ≤ z) (hhigh : z ≤ 2147483647) :
    checkInt z = some z :=
  if_pos ⟨hlow, hhigh⟩

/-- `M`, an unsigned constant. -/
def randM : ℕ :=
  2147483647

/-- `A`. -/
def randA : ℕ :=
  48271

/-- `Q`, the quotient of `M` by `A`. -/
def randQ : ℤ :=
  44488

/-- `R`, the remainder. -/
def randR : ℤ :=
  3399

/-- `rt_rand_r`: what it returns and the seed it leaves. -/
def rtRandR (seed : ℕ) : Option (ℤ × ℕ) := do
  let x := i32 seed
  let low ← checkInt (randA * x.tmod randQ)
  let high ← checkInt (randR * x.tdiv randQ)
  let x ← checkInt (low - high)
  let x := if x < 0 then i32 (u32 (u32 x + randM)) else x
  return (x, u32 x)

/-- As many calls of `rt_rand_r` with one seed as the count says: what they return, in
order, and the seed they leave. -/
def rtRandCalls : ℕ → ℕ → Option (List ℤ × ℕ)
  | 0, seed => some ([], seed)
  | count + 1, seed => do
      let (x, seed) ← rtRandR seed
      let (xs, seed) ← rtRandCalls count seed
      return (x :: xs, seed)

/-- Multiplication by `A` keeps the residues other than zero: `A` and `M` have no factor in
common. -/
theorem randA_mul_mod_pos {x : ℕ} (hpos : 1 ≤ x) (hlt : x < randM) :
    1 ≤ randA * x % randM := by
  refine Nat.one_le_iff_ne_zero.mpr ?_
  intro hzero
  have hdvd : randM ∣ x :=
    (by decide : Nat.Coprime randM randA).dvd_of_dvd_mul_left (Nat.dvd_of_mod_eq_zero hzero)
  have := Nat.le_of_dvd hpos hdvd
  omega

/-- The difference the code forms is `A * seed` less a multiple of `M`, and so the residue or
what falls short of it by `M`. -/
theorem randDifference {seed : ℕ} {d : ℤ} (hlt : seed < randM)
    (hd : d = randA * (seed % randQ) - randR * (seed / randQ)) :
    -2147483647 < d ∧ d < 2147483647 ∧
      ((randA * seed % randM : ℕ) : ℤ) = if d < 0 then d + randM else d := by
  unfold randA randM randQ randR at *
  have hmultiple : d = 48271 * seed - 2147483647 * (seed / 44488) := by omega
  refine ⟨by omega, by omega, ?_⟩
  split
  · omega
  · omega

/-- Adding `M` to a negative `int` in unsigned arithmetic. -/
theorem i32_add_randM {d : ℤ} (hlow : -2147483647 < d) (hneg : d < 0) :
    i32 (u32 (u32 d + randM)) = d + randM := by
  have hd : u32 d = d + 4294967296 := by
    unfold u32
    omega
  have hsum : u32 (u32 d + randM) = d + randM := by
    rw [hd]
    unfold u32 randM
    omega
  rw [← hsum]
  refine i32_natCast_of_lt ?_
  have hM : randM = 2147483647 := rfl
  omega

/-- **One call** multiplies the seed by `A` modulo `M`. -/
theorem rtRandR_eq {seed : ℕ} (hlt : seed < randM) :
    rtRandR seed = some (((randA * seed % randM : ℕ) : ℤ), randA * seed % randM) := by
  have hx : i32 seed = seed := i32_natCast_of_lt (Nat.lt_trans hlt (by decide))
  have hmod : (seed : ℤ).tmod randQ = seed % randQ := Int.tmod_eq_emod_of_nonneg (by omega)
  have hdiv : (seed : ℤ).tdiv randQ = seed / randQ := Int.tdiv_eq_ediv_of_nonneg (by omega)
  have hlow : checkInt (randA * (seed % randQ)) = some (randA * (seed % randQ)) := by
    unfold randA randQ
    exact checkInt_of_fits (by omega) (by omega)
  have hhigh : checkInt (randR * (seed / randQ)) = some (randR * (seed / randQ)) := by
    unfold randM at hlt
    unfold randR randQ
    exact checkInt_of_fits (by omega) (by omega)
  obtain ⟨hbelow, habove, hresidue⟩ := randDifference hlt rfl
  have hdiff := checkInt_of_fits (Int.le_trans (by decide) (Int.le_of_lt hbelow))
    (Int.le_of_lt habove)
  have hend : ∀ x : ℤ, x = ((randA * seed % randM : ℕ) : ℤ) →
      (x, u32 x) = (((randA * seed % randM : ℕ) : ℤ), randA * seed % randM) := by
    rintro x rfl
    have hsmall : randA * seed % randM < randM := Nat.mod_lt _ (by decide)
    rw [u32_natCast_of_lt (Nat.lt_trans hsmall (by decide))]
  simp only [rtRandR, hx, hmod, hdiv, hlow, hhigh, hdiff, Option.bind_eq_bind, Option.bind_some]
  refine congrArg some (hend _ ?_)
  rw [hresidue]
  split
  · next hneg => exact i32_add_randM hbelow hneg
  · rfl

/-- **The closed form** of any number of calls: the call after `k` others returns
`A ^ (k + 1) * seed % M`, no operation overflows, and the seed stays a residue other than
zero. -/
theorem rtRandCalls_eq {seed : ℕ} (hpos : 1 ≤ seed) (hle : seed ≤ 2 ^ 31 - 2) (n : ℕ) :
    rtRandCalls n seed =
        some ((List.range n).map fun k => ((48271 ^ (k + 1) * seed % (2 ^ 31 - 1) : ℕ) : ℤ),
          48271 ^ n * seed % (2 ^ 31 - 1)) ∧
      1 ≤ 48271 ^ n * seed % (2 ^ 31 - 1) ∧ 48271 ^ n * seed % (2 ^ 31 - 1) ≤ 2 ^ 31 - 2 := by
  change rtRandCalls n seed =
        some ((List.range n).map fun k => ((randA ^ (k + 1) * seed % randM : ℕ) : ℤ),
          randA ^ n * seed % randM) ∧
      1 ≤ randA ^ n * seed % randM ∧ randA ^ n * seed % randM ≤ randM - 1
  have hlt : seed < randM := Nat.lt_of_le_of_lt hle (by decide)
  clear hle
  induction n generalizing seed with
  | zero =>
      rw [Nat.pow_zero, Nat.one_mul, Nat.mod_eq_of_lt hlt]
      exact ⟨rfl, hpos, Nat.le_sub_one_of_lt hlt⟩
  | succ n ih =>
      have hnext : randA * seed % randM < randM := Nat.mod_lt _ (by decide)
      obtain ⟨hcalls, hpos', hle'⟩ := ih (randA_mul_mod_pos hpos hlt) hnext
      -- a power of `A` times the next seed is the next power times this one
      have hpow : ∀ k, randA ^ k * (randA * seed % randM) % randM =
          randA ^ (k + 1) * seed % randM := by
        intro k
        rw [Nat.mul_mod_mod, ← Nat.mul_assoc, ← Nat.pow_succ]
      rw [hpow] at hcalls hpos' hle'
      refine ⟨?_, hpos', hle'⟩
      rw [rtRandCalls, rtRandR_eq hlt]
      simp only [Option.bind_eq_bind, Option.bind_some, hcalls, hpow, List.range_succ_eq_map,
        List.map_cons, List.map_map, Nat.zero_add, Nat.pow_one]
      rfl

/-- The first three calls with the initial seed of `rt_rand`. -/
theorem rtRandCalls_initial :
    rtRandCalls 3 1 =
        some ((List.range 3).map fun k => ((48271 ^ (k + 1) * 1 % (2 ^ 31 - 1) : ℕ) : ℤ),
          48271 ^ 3 * 1 % (2 ^ 31 - 1)) ∧
      1 ≤ 48271 ^ 3 * 1 % (2 ^ 31 - 1) ∧ 48271 ^ 3 * 1 % (2 ^ 31 - 1) ≤ 2 ^ 31 - 2 :=
  rtRandCalls_eq (by decide) (by decide) 3

end RtBoot
