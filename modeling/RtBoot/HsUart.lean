import Mathlib.Algebra.Order.Ring.Abs
import Mathlib.Algebra.Order.Field.Rat
import Mathlib.Tactic.NormNum
import RtBoot.Machine

/-!
# The Rate Search of the High-Speed UART

The rate of the high-speed UART is `ref_clk * step / ((scale + 1) * 2 ^ 17)`.
`ar933x_hsuart_get_scale_step` looks for the pair of scale and step that comes closest to a
requested rate: for each scale it takes the step that is just below, until a step passes the
limit of the register, and keeps the pair whose rate, as `ar933x_hsuart_get_baud` computes
it, is nearest.

`ar933x_hsuart_get_baud` declares its result as a 64-bit number and forms the product
`ref_clk * uart_step` in 32 bits. The rate it computes is right exactly when the product,
with half of the divisor added for rounding, fits 32 bits. For both reference clocks and all
rates there is a scale within the scan for which it does not, as long as anything is scanned.

## Main results

* `hsuartGetBaud_nearest_iff`: exactly when the computed rate is the exact one, rounded.
* `hsuartSearch_least`: what the search minimises.
* `searchOptimal_iff`: exactly when the search is optimal.
-/

namespace RtBoot

/-- `QCA_HSUART_CLK_SCALE_MAX_VAL`. -/
def hsuartClkScaleMaxVal : ℕ :=
  0xFF

/-- `QCA_HSUART_CLK_STEP_MAX_VAL`. -/
def hsuartClkStepMaxVal : ℕ :=
  0x3333

/-- `ar933x_get_xtal_hz`: the reference clock, by the bit in the bootstrap register. -/
def ar933xGetXtalHz (refClkBit : Bool) : ℕ :=
  if refClkBit then 40000000 else 25000000

/-- `ar933x_hsuart_get_baud`. Product and sum are in `rt_uint32_t`, the quotient is taken of
the result. -/
def hsuartGetBaud (refClk uartScale uartStep : ℕ) : ℕ :=
  let div := u32 (u32 (uartScale + 1) * 131072)
  u32 (u64 (u32 (u32 (refClk * uartStep) + div / 2) : ℕ) / div : ℕ)

/-- `tstep` for a scale: the product of rate and scale in `rt_uint32_t`, the rest in
`rt_uint64_t`. -/
def hsuartTstep (refClk baudrate tscale : ℕ) : ℕ :=
  u64 (u32 (baudrate * u32 (tscale + 1)) * 131072) / refClk

/-- `diff`: the distance of the computed rate from the requested one. -/
def hsuartDiff (refClk baudrate tscale tstep : ℕ) : ℤ :=
  let diff := i32 (hsuartGetBaud refClk tscale (u32 tstep) - baudrate)
  if diff < 0 then i32 (-1 * diff) else diff

/-- The variables of the search. -/
structure HsuartSearch where
  uartScale : ℕ
  uartStep : ℕ
  minDiff : ℤ
  deriving DecidableEq, Repr

/-- The loop of `ar933x_hsuart_get_scale_step`, with `left` scales to go from `tscale` on. -/
def hsuartSearch (refClk baudrate : ℕ) : ℕ → ℕ → HsuartSearch → HsuartSearch
  | 0, _, st => st
  | left + 1, tscale, st =>
      let tstep := hsuartTstep refClk baudrate tscale
      if hsuartClkStepMaxVal < tstep then st
      else
        let diff := hsuartDiff refClk baudrate tscale tstep
        hsuartSearch refClk baudrate left (tscale + 1)
          (if diff < st.minDiff then ⟨tscale, u32 tstep, diff⟩ else st)

/-- `ar933x_hsuart_get_scale_step`. -/
def hsuartGetScaleStep (refClk baudrate : ℕ) : ℕ × ℕ :=
  let st := hsuartSearch refClk baudrate hsuartClkScaleMaxVal 0 ⟨0, 0, i32 baudrate⟩
  (st.uartScale, st.uartStep)

/-- The pairs of scale and step that the loop comes to before a step passes the limit. -/
def hsuartScan (refClk baudrate : ℕ) : ℕ → ℕ → List (ℕ × ℕ)
  | 0, _ => []
  | left + 1, tscale =>
      let tstep := hsuartTstep refClk baudrate tscale
      if hsuartClkStepMaxVal < tstep then []
      else (tscale, tstep) :: hsuartScan refClk baudrate left (tscale + 1)

/-- The pairs the search evaluates. -/
def hsuartScanned (refClk baudrate : ℕ) : List (ℕ × ℕ) :=
  hsuartScan refClk baudrate hsuartClkScaleMaxVal 0

/-! ### The exact rates -/

/-- `c` is `x / d` rounded to nearest. -/
def Nearest (c x d : ℕ) : Prop :=
  2 * |(c * d : ℤ) - x| ≤ d

/-- The exact distance of the rate of a pair from the requested one. -/
def rateError (refClk baudrate : ℕ) (p : ℕ × ℕ) : ℚ :=
  |(refClk * p.2 : ℚ) / ((p.1 + 1) * 2 ^ 17) - baudrate|

/-- **An optimal search.** Every step is the quotient it stands for, every rate the search
computes is the exact one rounded to nearest, and the pair it returns has the least exact
error of all pairs it evaluates. -/
structure SearchOptimal (refClk baudrate : ℕ) : Prop where
  step : ∀ p ∈ hsuartScanned refClk baudrate, p.2 = baudrate * (p.1 + 1) * 2 ^ 17 / refClk
  rounds : ∀ p ∈ hsuartScanned refClk baudrate,
    Nearest (hsuartGetBaud refClk p.1 p.2) (refClk * p.2) ((p.1 + 1) * 2 ^ 17)
  least : ∀ p ∈ hsuartScanned refClk baudrate,
    rateError refClk baudrate (hsuartGetScaleStep refClk baudrate) ≤ rateError refClk baudrate p

/-! ### The computed rate -/

/-- Cutting the product to 32 bits before or after the addition makes no difference. -/
theorem hsuartGetBaud_eq {refClk uartScale uartStep : ℕ} (hscale : uartScale < 0xFF) :
    hsuartGetBaud refClk uartScale uartStep =
      (refClk * uartStep + (uartScale + 1) * 131072 / 2) % 4294967296 /
        ((uartScale + 1) * 131072) := by
  have hdiv : u32 (u32 (uartScale + 1) * 131072) = (uartScale + 1) * 131072 := by
    unfold u32
    omega
  have hsum : u32 (u32 (refClk * uartStep) + ((uartScale + 1) * 131072 : ℕ) / 2) =
      (refClk * uartStep + (uartScale + 1) * 131072 / 2) % 4294967296 := by
    generalize hx : refClk * uartStep = x
    have hx' : (refClk * uartStep : ℤ) = x := by exact_mod_cast hx
    rw [hx']
    unfold u32
    omega
  have hsmall : (refClk * uartStep + (uartScale + 1) * 131072 / 2) % 4294967296 < 4294967296 :=
    Nat.mod_lt _ (by decide)
  have hquot := lt_of_le_of_lt (Nat.div_le_self ((refClk * uartStep +
    (uartScale + 1) * 131072 / 2) % 4294967296) ((uartScale + 1) * 131072)) hsmall
  have hwide : ∀ n : ℕ, n < 4294967296 → u64 (n : ℤ) = n := by
    intro n hn
    unfold u64
    omega
  rw [hsuartGetBaud, hdiv, hsum, hwide _ hsmall, u32_natCast_of_lt hquot]

/-- A quotient by `2 * h` of a sum cut to 32 bits is the rounded one exactly when nothing is
cut. -/
theorem nearest_mod_iff {x h : ℕ} (hpos : 0 < h) (hsmall : h < 2147483648) :
    Nearest ((x + h) % 4294967296 / (2 * h)) x (2 * h) ↔ x + h < 4294967296 := by
  have hlow := Nat.div_mul_le_self ((x + h) % 4294967296) (2 * h)
  have hhigh := Nat.lt_div_mul_add (a := (x + h) % 4294967296) (show 0 < 2 * h by omega)
  have hcast : (((x + h) % 4294967296 / (2 * h) : ℕ) * (2 * h : ℕ) : ℤ) =
      ((x + h) % 4294967296 / (2 * h) * (2 * h) : ℕ) := (Nat.cast_mul _ _).symm
  rw [Nearest, hcast]
  generalize (x + h) % 4294967296 / (2 * h) * (2 * h) = p at hlow hhigh
  constructor
  · intro hnear
    have := neg_abs_le ((p : ℤ) - x)
    omega
  · intro hfits
    have : |(p : ℤ) - x| ≤ h := abs_le.mpr ⟨by omega, by omega⟩
    omega

/-- **The computed rate.** It is the exact rate of the pair, rounded to nearest, exactly when
the product with half of the divisor fits 32 bits. -/
theorem hsuartGetBaud_nearest_iff {refClk uartScale uartStep : ℕ} (hscale : uartScale < 0xFF) :
    Nearest (hsuartGetBaud refClk uartScale uartStep) (refClk * uartStep)
        ((uartScale + 1) * 2 ^ 17) ↔
      refClk * uartStep + (uartScale + 1) * 2 ^ 16 < 2 ^ 32 := by
  have hhalf : (uartScale + 1) * 131072 / 2 = (uartScale + 1) * 2 ^ 16 := by omega
  have hdiv : (uartScale + 1) * 131072 = 2 * ((uartScale + 1) * 2 ^ 16) := by omega
  have hdiv' : (uartScale + 1) * 2 ^ 17 = 2 * ((uartScale + 1) * 2 ^ 16) := by omega
  rw [hsuartGetBaud_eq hscale, hhalf, hdiv, hdiv']
  exact nearest_mod_iff (by omega) (by omega)

/-! ### The search -/

/-- What the search minimises: the distance that is computed. Its result is the pair it
started with or one of those it came to, with the least distance of all. -/
theorem hsuartSearch_least (refClk baudrate left tscale : ℕ) (st : HsuartSearch) :
    (∀ p ∈ hsuartScan refClk baudrate left tscale,
        (hsuartSearch refClk baudrate left tscale st).minDiff ≤
          hsuartDiff refClk baudrate p.1 p.2) ∧
      (hsuartSearch refClk baudrate left tscale st).minDiff ≤ st.minDiff ∧
      (hsuartSearch refClk baudrate left tscale st = st ∨
        ∃ p ∈ hsuartScan refClk baudrate left tscale,
          hsuartSearch refClk baudrate left tscale st =
            ⟨p.1, u32 p.2, hsuartDiff refClk baudrate p.1 p.2⟩) := by
  induction left generalizing tscale st with
  | zero => exact ⟨fun p hp => absurd hp List.not_mem_nil, le_rfl, .inl rfl⟩
  | succ left ih =>
      rw [hsuartScan, hsuartSearch]
      dsimp only
      split
      case isTrue hlimit =>
        exact ⟨fun p hp => absurd hp List.not_mem_nil, le_rfl, .inl rfl⟩
      case isFalse hlimit =>
        set tstep := hsuartTstep refClk baudrate tscale with htstep
        set diff := hsuartDiff refClk baudrate tscale tstep with hdiff
        set next : HsuartSearch := if diff < st.minDiff then ⟨tscale, u32 tstep, diff⟩ else st
          with hnext
        obtain ⟨hall, hle, hres⟩ := ih (tscale + 1) next
        have hkeep : next.minDiff ≤ st.minDiff ∧ next.minDiff ≤ diff := by
          rw [hnext]
          split
          · exact ⟨le_of_lt ‹_›, le_rfl⟩
          · exact ⟨le_rfl, not_lt.mp ‹_›⟩
        refine ⟨?_, hle.trans hkeep.1, ?_⟩
        · intro p hp
          rcases List.mem_cons.mp hp with rfl | hp
          · exact hle.trans hkeep.2
          · exact hall p hp
        · rcases hres with hres | ⟨p, hp, hres⟩
          · by_cases hlt : diff < st.minDiff
            · rw [hres, hnext, if_pos hlt]
              exact .inr ⟨(tscale, tstep), List.mem_cons_self, rfl⟩
            · rw [hres, hnext, if_neg hlt]
              exact .inl rfl
          · exact .inr ⟨p, List.mem_cons_of_mem _ hp, hres⟩

/-- The pairs of the scan: the scales up to the first whose step passes the limit. -/
theorem mem_hsuartScan {refClk baudrate left tscale : ℕ} {p : ℕ × ℕ} :
    p ∈ hsuartScan refClk baudrate left tscale ↔
      tscale ≤ p.1 ∧ p.1 < tscale + left ∧ p.2 = hsuartTstep refClk baudrate p.1 ∧
        ∀ s, tscale ≤ s → s ≤ p.1 → hsuartTstep refClk baudrate s ≤ hsuartClkStepMaxVal := by
  induction left generalizing tscale with
  | zero =>
      rw [hsuartScan]
      exact iff_of_false List.not_mem_nil (by omega)
  | succ left ih =>
      rw [hsuartScan]
      split
      case isTrue hlimit =>
        refine iff_of_false List.not_mem_nil ?_
        rintro ⟨hlo, -, -, hall⟩
        have := hall tscale le_rfl hlo
        omega
      case isFalse hlimit =>
        rw [List.mem_cons, ih]
        constructor
        · rintro (rfl | ⟨hlo, hhi, hstep, hall⟩)
          · refine ⟨le_rfl, by omega, rfl, ?_⟩
            intro s hs hs'
            obtain rfl : s = tscale := le_antisymm hs' hs
            omega
          · refine ⟨by omega, by omega, hstep, ?_⟩
            intro s hs hs'
            rcases Nat.eq_or_lt_of_le hs with rfl | hlt
            · omega
            · exact hall s hlt hs'
        · rintro ⟨hlo, hhi, hstep, hall⟩
          rcases Nat.eq_or_lt_of_le hlo with heq | hlt
          · exact .inl (Prod.ext heq.symm (by rw [hstep, ← heq]))
          · exact .inr ⟨hlt, by omega, hstep, fun s hs hs' => hall s (by omega) hs'⟩

/-- The step of a scale is the quotient over exact integers: no product is cut. -/
theorem hsuartTstep_eq {refClk baudrate tscale : ℕ} (hbaud : baudrate ≤ 3000000)
    (hscale : tscale < hsuartClkScaleMaxVal) :
    hsuartTstep refClk baudrate tscale = baudrate * (tscale + 1) * 2 ^ 17 / refClk := by
  have hscale' : tscale + 1 ≤ 255 := hscale
  have hprod : baudrate * (tscale + 1) ≤ 3000000 * 255 := Nat.mul_le_mul hbaud hscale'
  have hone : u32 ((tscale : ℤ) + 1) = tscale + 1 := by
    unfold u32
    omega
  have hcast : (baudrate : ℤ) * ((tscale + 1 : ℕ) : ℤ) = (baudrate * (tscale + 1) : ℕ) :=
    (Nat.cast_mul _ _).symm
  rw [hsuartTstep, hone, hcast]
  generalize baudrate * (tscale + 1) = n at hprod ⊢
  congr 1
  unfold u32 u64
  omega

/-- A scale is scanned as soon as its own step is within the limit: the steps grow. -/
theorem mem_hsuartScanned {refClk baudrate tscale : ℕ} (hbaud : baudrate ≤ 3000000)
    (hscale : tscale < hsuartClkScaleMaxVal)
    (hlimit : baudrate * (tscale + 1) * 2 ^ 17 / refClk ≤ hsuartClkStepMaxVal) :
    (tscale, baudrate * (tscale + 1) * 2 ^ 17 / refClk) ∈ hsuartScanned refClk baudrate := by
  refine mem_hsuartScan.mpr ⟨Nat.zero_le _, by simpa using hscale, ?_, ?_⟩
  · exact (hsuartTstep_eq hbaud hscale).symm
  · intro s _ hs
    have hs' : s ≤ tscale := hs
    rw [hsuartTstep_eq hbaud (hs'.trans_lt hscale)]
    refine le_trans (Nat.div_le_div_right ?_) hlimit
    exact Nat.mul_le_mul_right _ (Nat.mul_le_mul_left _ (by omega))

/-- The scale at which the product of rate and scale first comes to 33100: the step is within
the limit, and `ref_clk * step` does not fit 32 bits. -/
theorem exists_scanned_overflow {refClk baudrate : ℕ}
    (href : refClk = 25000000 ∨ refClk = 40000000) (hlow : 300 ≤ baudrate)
    (hhigh : baudrate ≤ 3000000) (hscan : refClk = 25000000 → baudrate < 2500153) :
    ∃ p ∈ hsuartScanned refClk baudrate, p.1 < 0xFF ∧ 2 ^ 32 ≤ refClk * p.2 := by
  obtain ⟨m, hm⟩ : ∃ m, m = (33099 + baudrate) / baudrate := ⟨_, rfl⟩
  have hmul : baudrate * m ≤ 33099 + baudrate := hm ▸ Nat.mul_div_le _ _
  have hnext : 33099 + baudrate < baudrate * m + baudrate := by
    have := Nat.lt_mul_div_succ (33099 + baudrate) (show 0 < baudrate by omega)
    rwa [← hm, Nat.mul_add, Nat.mul_one] at this
  have hpos : 0 < m := hm ▸ Nat.div_pos (by omega) (by omega)
  have hsmall : m ≤ 111 := by
    by_contra hbig
    have := Nat.mul_le_mul hlow (show 112 ≤ m by omega)
    have := Nat.mul_le_mul_left baudrate (show 112 ≤ m by omega)
    omega
  have hone : 33100 < baudrate → baudrate * m = baudrate := by
    intro hlarge
    obtain rfl : m = 1 := by
      by_contra hne
      have := Nat.mul_le_mul_left baudrate (show 2 ≤ m by omega)
      omega
    exact Nat.mul_one _
  obtain ⟨s, rfl⟩ : ∃ s, m = s + 1 := ⟨m - 1, by omega⟩
  refine ⟨_, mem_hsuartScanned hhigh (show s < 0xFF by omega) ?_, by omega, ?_⟩
  · unfold hsuartClkStepMaxVal
    generalize baudrate * (s + 1) = n at *
    rcases href with rfl | rfl <;> omega
  · generalize baudrate * (s + 1) = n at *
    rcases href with rfl | rfl <;> omega

/-! ### The result -/

/-- **When the search is optimal.** Only where nothing is scanned: at a reference clock of
25 MHz the step of the first scale passes the limit from 2500153 baud on. For every other rate
the search comes to a pair whose rate it computes wrongly. -/
theorem searchOptimal_iff (refClkBit : Bool) {baudrate : ℕ} (hlow : 300 ≤ baudrate)
    (hhigh : baudrate ≤ 3000000) :
    SearchOptimal (ar933xGetXtalHz refClkBit) baudrate ↔
      ar933xGetXtalHz refClkBit = 25000000 ∧ 2500153 ≤ baudrate := by
  have href : ar933xGetXtalHz refClkBit = 25000000 ∨ ar933xGetXtalHz refClkBit = 40000000 := by
    cases refClkBit
    · exact .inl rfl
    · exact .inr rfl
  generalize ar933xGetXtalHz refClkBit = refClk at href ⊢
  constructor
  · intro hopt
    by_contra hnot
    obtain ⟨p, hp, hscale, hbig⟩ :=
      exists_scanned_overflow href hlow hhigh (by rintro rfl; omega)
    have hfits := (hsuartGetBaud_nearest_iff hscale).mp (hopt.rounds p hp)
    omega
  · rintro ⟨rfl, hfast⟩
    have hnone : hsuartScanned 25000000 baudrate = [] := by
      refine List.eq_nil_iff_forall_not_mem.mpr ?_
      intro p hp
      obtain ⟨-, -, -, hall⟩ := mem_hsuartScan.mp hp
      have hfirst := hall 0 le_rfl (Nat.zero_le _)
      rw [hsuartTstep_eq hhigh (by decide), hsuartClkStepMaxVal] at hfirst
      omega
    constructor <;> rw [hnone] <;> exact fun p hp => absurd hp List.not_mem_nil

/-- The fastest rate at 25 MHz: the pair stays at zero. -/
theorem searchOptimal_fastest :
    SearchOptimal (ar933xGetXtalHz false) 3000000 ∧
      hsuartGetScaleStep (ar933xGetXtalHz false) 3000000 = (0, 0) :=
  ⟨(searchOptimal_iff false (by decide) (by decide)).mpr ⟨rfl, by decide⟩, by decide⟩

/-- The rate of the console at 25 MHz. The search takes the first scale, 187 baud off, and
computes a rate for it that is 98491 off; the pair of scale 20 is 5 baud off. -/
theorem searchOptimal_fails_console :
    hsuartGetScaleStep (ar933xGetXtalHz false) 115200 = (0, 603) ∧
      hsuartGetBaud 25000000 0 603 = 16709 ∧
      (20, 12683) ∈ hsuartScanned (ar933xGetXtalHz false) 115200 ∧
      rateError 25000000 115200 (20, 12683) < rateError 25000000 115200 (0, 603) := by
  refine ⟨by decide +kernel, by decide +kernel, by decide +kernel, ?_⟩
  norm_num [rateError, abs_lt, lt_abs]

end RtBoot
