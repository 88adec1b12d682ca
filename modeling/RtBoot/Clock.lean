import Mathlib.Algebra.Order.Floor.Semifield
import Mathlib.Data.Rat.Floor
import Mathlib.Tactic.FieldSimp
import RtBoot.Machine

/-!
# Clock Frequencies of the QCA953x

`qca953x_clock_info_init` works out the frequencies of the chip from its registers. The CPU
and the DDR memory have a phase-locked loop each, set up either through the SRIF registers
or through the registers of the PLL block; the CPU, DDR and AHB clocks are derived from one
of the two loops by a divider, or bypass them; the SPI clock is a fraction of the AHB clock.

Registers are 32-bit words and their fields are cut out with masks. The arithmetic is
checked: a 32-bit or 64-bit result that does not fit, or a division by zero, is `none`, and
the results below say that this never happens. Only the final conversion of a loop's
frequency to 32 bits is a cut.

What the code is for is stated in rational numbers (`idealPll`, `idealClock`, `idealSpiClk`):
the frequencies the fields describe, without rounding.

## Main results

* `qca953xGetPll_eq`: the frequency of a loop is the floor of the ideal one, cut to 32 bits.
* `qca953xClockInfoInit_exact`: when the two loops are below `2 ^ 32` Hz, every frequency
  stored is the floor of the ideal one.
-/

namespace RtBoot

/-! ### Registers and fields -/

/-- The registers `qca953x_clock_info_init` reads. -/
inductive ClockReg where
  | rstBootstrap
  | srifCpuDpll1
  | srifCpuDpll2
  | srifDdrDpll1
  | srifDdrDpll2
  | cpuPllCfg
  | cpuPllDither
  | ddrPllCfg
  | ddrPllDither
  | cpuDdrClkCtrl
  | spiFuncSel
  | spiCtrl
  deriving DecidableEq, Repr

/-- The content of the registers. -/
abbrev ClockRegs : Type :=
  ClockReg → BitVec 32

/-- `BIT(x)`. -/
def bit (x : ℕ) : BitVec 32 :=
  BitVec.ofNat 32 (1 <<< x)

/-- `BITS(start, bits)`. -/
def bits (start n : ℕ) : BitVec 32 :=
  BitVec.ofNat 32 (((1 <<< n) - 1) <<< start)

/-- The field of `n` bits from bit `start` on. -/
def field (reg : BitVec 32) (start n : ℕ) : ℕ :=
  ((reg &&& bits start n) >>> start).toNat

/-- A field of `n` bits is below `2 ^ n`. -/
theorem field_lt (reg : BitVec 32) (start n : ℕ) : field reg start n < 2 ^ n := by
  have hmask : (bits start n).toNat ≤ (2 ^ n - 1) * 2 ^ start := by
    rw [bits, BitVec.toNat_ofNat, Nat.shiftLeft_eq, Nat.shiftLeft_eq, Nat.one_mul]
    exact Nat.mod_le _ _
  have hle : field reg start n ≤ 2 ^ n - 1 := by
    rw [field, BitVec.toNat_ushiftRight, Nat.shiftRight_eq_div_pow, BitVec.toNat_and]
    exact Nat.div_le_of_le_mul ((Nat.and_le_right.trans hmask).trans_eq (Nat.mul_comm _ _))
  exact Nat.lt_of_le_of_lt hle (Nat.sub_one_lt (Nat.two_pow_pos n).ne')

/-! ### Checked arithmetic -/

/-- A 32-bit result, if it fits. -/
def check32 (n : ℕ) : Option ℕ :=
  if n < 4294967296 then some n else none

/-- A 64-bit result, if it fits. -/
def check64 (n : ℕ) : Option ℕ :=
  if n < 18446744073709551616 then some n else none

/-- A quotient, if there is one. -/
def checkDiv (a b : ℕ) : Option ℕ :=
  if b = 0 then none else some (a / b)

theorem check32_of_lt {n : ℕ} (h : n < 4294967296) : check32 n = some n :=
  if_pos h

theorem check64_of_lt {n : ℕ} (h : n < 18446744073709551616) : check64 n = some n :=
  if_pos h

theorem checkDiv_of_pos {a b : ℕ} (h : 0 < b) : checkDiv a b = some (a / b) :=
  if_neg h.ne'

/-! ### The phase-locked loops -/

/-- `qca953x_get_xtal_hz`. -/
def qca953xGetXtalHz (regs : ClockRegs) : ℕ :=
  if field (regs .rstBootstrap) 4 1 ≠ 0 then 40 * 1000 * 1000 else 25 * 1000 * 1000

/-- Where the settings of a loop are: its registers, the places of the fields in them, and
the width of the fractional part outside the SRIF registers. -/
structure PllLayout where
  dpll1 : ClockReg
  dpll2 : ClockReg
  cfg : ClockReg
  dither : ClockReg
  nfracBits : ℕ
  nintShift : ℕ
  refdivShift : ℕ
  outdivShift : ℕ
  nfracMinShift : ℕ
  nfracBits_le : nfracBits ≤ 18

/-- The CPU loop. -/
def cpuPllLayout : PllLayout where
  dpll1 := .srifCpuDpll1
  dpll2 := .srifCpuDpll2
  cfg := .cpuPllCfg
  dither := .cpuPllDither
  nfracBits := 6
  nintShift := 6
  refdivShift := 12
  outdivShift := 19
  nfracMinShift := 6
  nfracBits_le := by decide

/-- The DDR loop. -/
def ddrPllLayout : PllLayout where
  dpll1 := .srifDdrDpll1
  dpll2 := .srifDdrDpll2
  cfg := .ddrPllCfg
  dither := .ddrPllDither
  nfracBits := 10
  nintShift := 10
  refdivShift := 16
  outdivShift := 23
  nfracMinShift := 10
  nfracBits_le := by decide

/-- The settings of a loop, with the bounds the fields give them. -/
structure PllSettings where
  refdiv : ℕ
  nfrac : ℕ
  nfracdiv : ℕ
  nint : ℕ
  outdiv : ℕ
  refdiv_lt : refdiv < 2 ^ 5
  nfrac_lt : nfrac < nfracdiv
  nfracdiv_le : nfracdiv ≤ 2 ^ 18
  nint_lt : nint < 2 ^ 9
  outdiv_lt : outdiv < 2 ^ 3

/-- The settings of a loop, from the SRIF registers when these are in charge. -/
def pllSettings (p : PllLayout) (regs : ClockRegs) : PllSettings :=
  if regs p.dpll2 &&& bit 31 ≠ 0 then
    { outdiv := field (regs p.dpll2) 19 3
      nfrac := field (regs p.dpll1) 0 18
      nfracdiv := 1 <<< 18
      nint := field (regs p.dpll1) 18 9
      refdiv := field (regs p.dpll1) 27 5
      refdiv_lt := field_lt _ _ _
      nfrac_lt := field_lt _ _ _
      nfracdiv_le := Nat.le_refl _
      nint_lt := field_lt _ _ _
      outdiv_lt := field_lt _ _ _ }
  else
    { -- without dithering the fractional part is the lower end of the dither range
      nfrac :=
        if regs p.dither &&& bit 31 ≠ 0 then field (regs p.cfg) 0 p.nfracBits
        else field (regs p.dither) p.nfracMinShift p.nfracBits
      nfracdiv := 1 <<< p.nfracBits
      nint := field (regs p.cfg) p.nintShift 6
      refdiv := field (regs p.cfg) p.refdivShift 5
      outdiv := field (regs p.cfg) p.outdivShift 3
      refdiv_lt := field_lt _ _ _
      nfrac_lt := by
        rw [Nat.shiftLeft_eq, Nat.one_mul]
        split
        · exact field_lt _ _ _
        · exact field_lt _ _ _
      nfracdiv_le := by
        rw [Nat.shiftLeft_eq, Nat.one_mul]
        exact Nat.pow_le_pow_right (by decide) p.nfracBits_le
      nint_lt := Nat.lt_trans (field_lt _ _ _) (by decide)
      outdiv_lt := field_lt _ _ _ }

/-- `qca953x_get_pll`. -/
def qca953xGetPll (refClk refdiv nfrac nfracdiv nint outdiv : ℕ) : Option ℕ := do
  let pllDiv := if refdiv = 0 then 1 else refdiv
  let (pllMul, pllDiv) ←
    if 0 < nfrac then do
      let whole ← check32 (nint * nfracdiv)
      let n ← check32 (whole + nfrac)
      let pllMul ← check64 (refClk * n)
      let pllDiv ← check64 (pllDiv * nfracdiv)
      pure (pllMul, pllDiv)
    else do
      let pllMul ← check64 (refClk * nint)
      pure (pllMul, pllDiv)
  let pllDiv ← check64 (pllDiv <<< outdiv)
  let pll ← checkDiv pllMul pllDiv
  return u32 pll

/-- The frequency of one loop. -/
def pllClk (p : PllLayout) (regs : ClockRegs) : Option ℕ :=
  let s := pllSettings p regs
  qca953xGetPll (qca953xGetXtalHz regs) s.refdiv s.nfrac s.nfracdiv s.nint s.outdiv

/-! ### The clocks -/

/-- One of the clocks behind the loops: which bit bypasses them, which bit selects between
the loops, and where the divider is. -/
structure ClockLayout where
  bypass : ℕ
  select : ℕ
  postDivShift : ℕ

/-- The CPU clock; its selection bit stands for the CPU loop. -/
def cpuClkLayout : ClockLayout := ⟨2, 20, 5⟩

/-- The DDR clock; its selection bit stands for the DDR loop. -/
def ddrClkLayout : ClockLayout := ⟨3, 21, 10⟩

/-- The AHB clock; its selection bit stands for the DDR loop. -/
def ahbClkLayout : ClockLayout := ⟨4, 24, 15⟩

/-- The frequency of a clock, given those of the loop its selection bit stands for and of
the other one. -/
def postDivide (c : ClockLayout) (regVal : BitVec 32) (refClk selected other : ℕ) :
    Option ℕ := do
  let temp ← check32 (field regVal c.postDivShift 5 + 1)
  if regVal &&& bit c.bypass ≠ 0 then some refClk
  else if regVal &&& bit c.select ≠ 0 then checkDiv selected temp
  else checkDiv other temp

/-- What is stored in `rtboot_data`. -/
structure ClockInfo where
  cpuClk : ℕ
  ddrClk : ℕ
  ahbClk : ℕ
  refClk : ℕ
  spiClk : ℕ
  systemFrequency : ℕ
  deriving DecidableEq, Repr

/-- `qca953x_clock_info_init`: what it stores, and the registers it leaves. The SPI block is
switched to register access while its divider is read. -/
def qca953xClockInfoInit (regs : ClockRegs) : Option (ClockInfo × ClockRegs) := do
  let refClk := qca953xGetXtalHz regs
  let cpuPll ← pllClk cpuPllLayout regs
  let ddrPll ← pllClk ddrPllLayout regs
  let regVal := regs .cpuDdrClkCtrl
  let cpuClk ← postDivide cpuClkLayout regVal refClk cpuPll ddrPll
  let ddrClk ← postDivide ddrClkLayout regVal refClk ddrPll cpuPll
  let ahbClk ← postDivide ahbClkLayout regVal refClk ddrPll cpuPll
  let regs := Function.update regs .spiFuncSel (regs .spiFuncSel ||| bit 0)
  let spiDiv ← check32 (field (regs .spiCtrl) 0 6 + 1)
  let spiDiv ← check32 (spiDiv * 2)
  let spiClk ← checkDiv ahbClk spiDiv
  let regs := Function.update regs .spiFuncSel (regs .spiFuncSel &&& ~~~(bit 0))
  return (⟨cpuClk, ddrClk, ahbClk, refClk, spiClk, cpuClk⟩, regs)

/-! ### The ideal frequencies -/

/-- The frequency the settings of a loop describe; a reference divider of zero counts as
one. -/
def idealPll (refClk : ℕ) (s : PllSettings) : ℚ :=
  refClk * (s.nint + s.nfrac / s.nfracdiv) /
    ((if s.refdiv = 0 then 1 else s.refdiv : ℕ) * 2 ^ s.outdiv)

/-- The ideal frequency of a loop with the crystal the board has. -/
def idealPllClk (p : PllLayout) (regs : ClockRegs) : ℚ :=
  idealPll (qca953xGetXtalHz regs) (pllSettings p regs)

/-- The ideal frequency of a clock, given those of the loops. -/
def idealClock (c : ClockLayout) (regs : ClockRegs) (selected other : ℚ) : ℚ :=
  if regs .cpuDdrClkCtrl &&& bit c.bypass ≠ 0 then qca953xGetXtalHz regs
  else (if regs .cpuDdrClkCtrl &&& bit c.select ≠ 0 then selected else other) /
    (field (regs .cpuDdrClkCtrl) c.postDivShift 5 + 1 : ℕ)

/-- The ideal frequency of the CPU clock. -/
def idealCpuClk (regs : ClockRegs) : ℚ :=
  idealClock cpuClkLayout regs (idealPllClk cpuPllLayout regs) (idealPllClk ddrPllLayout regs)

/-- The ideal frequency of the DDR clock. -/
def idealDdrClk (regs : ClockRegs) : ℚ :=
  idealClock ddrClkLayout regs (idealPllClk ddrPllLayout regs) (idealPllClk cpuPllLayout regs)

/-- The ideal frequency of the AHB clock. -/
def idealAhbClk (regs : ClockRegs) : ℚ :=
  idealClock ahbClkLayout regs (idealPllClk ddrPllLayout regs) (idealPllClk cpuPllLayout regs)

/-- The ideal frequency of the SPI clock. -/
def idealSpiClk (regs : ClockRegs) : ℚ :=
  idealAhbClk regs / (2 * (field (regs .spiCtrl) 0 6 + 1) : ℕ)

/-! ### Exactness -/

theorem qca953xGetXtalHz_le (regs : ClockRegs) : qca953xGetXtalHz regs ≤ 40000000 := by
  rw [qca953xGetXtalHz]
  split
  · exact Nat.le_refl _
  · decide

section Pll
variable (s : PllSettings)

/-- The divider the code starts from. -/
theorem PllSettings.div_bounds :
    0 < (if s.refdiv = 0 then 1 else s.refdiv) ∧ (if s.refdiv = 0 then 1 else s.refdiv) ≤ 31 := by
  have := s.refdiv_lt
  split
  · omega
  · omega

/-- The multiplier in units of the fractional part fits 32 bits. -/
theorem PllSettings.mul_lt : s.nint * s.nfracdiv + s.nfrac < 2 ^ 27 := by
  have hnint : s.nint + 1 ≤ 2 ^ 9 := s.nint_lt
  calc s.nint * s.nfracdiv + s.nfrac < s.nint * s.nfracdiv + s.nfracdiv := by
        have := s.nfrac_lt
        omega
    _ = (s.nint + 1) * s.nfracdiv := (Nat.succ_mul _ _).symm
    _ ≤ 2 ^ 9 * 2 ^ 18 := Nat.mul_le_mul hnint s.nfracdiv_le
    _ = 2 ^ 27 := by decide

/-- The quotient the code forms, as the floor of the ideal frequency. -/
theorem PllSettings.quotient_eq (refClk : ℕ) {d : ℕ}
    (hd : d = if s.refdiv = 0 then 1 else s.refdiv) :
    refClk * (s.nint * s.nfracdiv + s.nfrac) / (d * s.nfracdiv * 2 ^ s.outdiv) =
      ⌊idealPll refClk s⌋₊ := by
  have hpos : (s.nfracdiv : ℚ) ≠ 0 := by
    have := s.nfrac_lt
    exact_mod_cast (by omega : s.nfracdiv ≠ 0)
  have hd' : (d : ℚ) ≠ 0 := by
    have := s.div_bounds.1
    exact_mod_cast (by omega : d ≠ 0)
  rw [← Nat.floor_div_eq_div (K := ℚ), idealPll, ← hd]
  congr 1
  push_cast
  field_simp

end Pll

/-- The last steps of `qca953x_get_pll`: divide, and cut to 32 bits. -/
theorem shift_divide_cut {mul div outdiv : ℕ} (hpos : 0 < div) (hdiv : div ≤ 31 * 2 ^ 18)
    (hout : outdiv < 2 ^ 3) :
    (do let div ← check64 (div <<< outdiv)
        let pll ← checkDiv mul div
        return u32 pll) = some (mul / (div * 2 ^ outdiv) % 2 ^ 32) := by
  have hpow : 2 ^ outdiv ≤ 2 ^ 7 := Nat.pow_le_pow_right (by decide) (by omega)
  have hsmall : div * 2 ^ outdiv < 18446744073709551616 :=
    Nat.lt_of_le_of_lt (Nat.mul_le_mul hdiv hpow) (by decide)
  have hpos' : 0 < div * 2 ^ outdiv := Nat.mul_pos hpos (Nat.two_pow_pos _)
  rw [Nat.shiftLeft_eq, check64_of_lt hsmall, Option.bind_eq_bind, Option.bind_some,
    checkDiv_of_pos hpos', Option.bind_some, u32_natCast]
  rfl

/-- **The frequency of a loop** is the floor of the ideal one, cut to 32 bits. -/
theorem qca953xGetPll_eq {refClk : ℕ} (href : refClk ≤ 40000000) (s : PllSettings) :
    qca953xGetPll refClk s.refdiv s.nfrac s.nfracdiv s.nint s.outdiv =
      some (⌊idealPll refClk s⌋₊ % 2 ^ 32) := by
  obtain ⟨hdpos, hdle⟩ := s.div_bounds
  have hquot := s.quotient_eq refClk rfl
  have hmul := s.mul_lt
  rw [qca953xGetPll]
  generalize (if s.refdiv = 0 then 1 else s.refdiv) = d at *
  have hfracpos : 0 < s.nfracdiv := Nat.lt_of_le_of_lt (Nat.zero_le _) s.nfrac_lt
  by_cases hfrac : 0 < s.nfrac
  · have hprod : refClk * (s.nint * s.nfracdiv + s.nfrac) < 18446744073709551616 :=
      Nat.lt_of_le_of_lt (Nat.mul_le_mul href (Nat.le_of_lt hmul)) (by decide)
    have hdiv : d * s.nfracdiv ≤ 31 * 2 ^ 18 := Nat.mul_le_mul hdle s.nfracdiv_le
    rw [if_pos hfrac, check32_of_lt (by omega), Option.bind_eq_bind, Option.bind_some,
      check32_of_lt (by omega), Option.bind_some, check64_of_lt hprod, Option.bind_some,
      check64_of_lt (Nat.lt_of_le_of_lt hdiv (by decide))]
    exact (shift_divide_cut (Nat.mul_pos hdpos hfracpos) hdiv s.outdiv_lt).trans (by rw [hquot])
  · -- without a fraction both sides of the quotient lack the same factor
    have hzero : s.nfrac = 0 := by omega
    have hcancel : refClk * s.nint / (d * 2 ^ s.outdiv) = ⌊idealPll refClk s⌋₊ := by
      rw [← hquot, hzero, Nat.add_zero, ← Nat.mul_assoc, Nat.mul_right_comm d,
        Nat.mul_div_mul_right _ _ hfracpos]
    have hprod : refClk * s.nint < 18446744073709551616 :=
      Nat.lt_of_le_of_lt (Nat.mul_le_mul href (Nat.le_of_lt s.nint_lt)) (by decide)
    rw [if_neg hfrac, check64_of_lt hprod, Option.bind_eq_bind, Option.bind_some]
    exact (shift_divide_cut hdpos (Nat.le_trans hdle (by decide)) s.outdiv_lt).trans
      (by rw [hcancel])

/-- A loop below `2 ^ 32` Hz is not cut. -/
theorem pllClk_eq {p : PllLayout} {regs : ClockRegs} (h : idealPllClk p regs < 2 ^ 32) :
    pllClk p regs = some ⌊idealPllClk p regs⌋₊ := by
  have hfloor : ⌊idealPllClk p regs⌋₊ < 2 ^ 32 :=
    (Nat.floor_lt' (by decide)).mpr (by exact_mod_cast h)
  rw [pllClk, qca953xGetPll_eq (qca953xGetXtalHz_le regs), ← idealPllClk,
    Nat.mod_eq_of_lt hfloor]

/-- Dividing the floors of the loops gives the floor of the ideal clock. -/
theorem postDivide_eq (c : ClockLayout) (regs : ClockRegs) (selected other : ℚ) :
    postDivide c (regs .cpuDdrClkCtrl) (qca953xGetXtalHz regs) ⌊selected⌋₊ ⌊other⌋₊ =
      some ⌊idealClock c regs selected other⌋₊ := by
  have hdiv := field_lt (regs .cpuDdrClkCtrl) c.postDivShift 5
  rw [postDivide, idealClock, check32_of_lt (by omega), Option.bind_eq_bind, Option.bind_some]
  split
  · rw [Nat.floor_natCast]
  · split
    · rw [checkDiv_of_pos (Nat.succ_pos _), Nat.floor_div_natCast]
    · rw [checkDiv_of_pos (Nat.succ_pos _), Nat.floor_div_natCast]

/-- **Every frequency is exact**: when both loops are below `2 ^ 32` Hz, nothing overflows,
nothing is divided by zero, and what is stored is the floor of the ideal frequencies. -/
theorem qca953xClockInfoInit_exact {regs : ClockRegs}
    (hcpu : idealPllClk cpuPllLayout regs < 2 ^ 32)
    (hddr : idealPllClk ddrPllLayout regs < 2 ^ 32) :
    ∃ info regs', qca953xClockInfoInit regs = some (info, regs') ∧
      info.cpuClk = ⌊idealCpuClk regs⌋₊ ∧ info.ddrClk = ⌊idealDdrClk regs⌋₊ ∧
      info.ahbClk = ⌊idealAhbClk regs⌋₊ ∧ info.spiClk = ⌊idealSpiClk regs⌋₊ := by
  have hspi := field_lt (regs .spiCtrl) 0 6
  have hctrl : Function.update regs .spiFuncSel (regs .spiFuncSel ||| bit 0) .spiCtrl =
      regs .spiCtrl := Function.update_of_ne (by decide) _ _
  have hspiClk : ⌊idealAhbClk regs⌋₊ / ((field (regs .spiCtrl) 0 6 + 1) * 2) =
      ⌊idealSpiClk regs⌋₊ := by
    rw [idealSpiClk, Nat.floor_div_natCast, Nat.mul_comm 2]
  have hregs : ∃ regs', qca953xClockInfoInit regs =
      some (⟨⌊idealCpuClk regs⌋₊, ⌊idealDdrClk regs⌋₊, ⌊idealAhbClk regs⌋₊,
        qca953xGetXtalHz regs, ⌊idealSpiClk regs⌋₊, ⌊idealCpuClk regs⌋₊⟩, regs') := by
    simp only [qca953xClockInfoInit, pllClk_eq hcpu, pllClk_eq hddr, Option.bind_eq_bind,
      Option.bind_some, postDivide_eq, hctrl]
    rw [check32_of_lt (by omega), Option.bind_some, check32_of_lt (by omega), Option.bind_some,
      checkDiv_of_pos (by omega), Option.bind_some, ← hspiClk]
    exact ⟨_, rfl⟩
  obtain ⟨regs', hinit⟩ := hregs
  exact ⟨_, regs', hinit, rfl, rfl, rfl, rfl⟩

/-- A board with a 25 MHz crystal, the CPU loop at 650 MHz and the DDR loop at 400 MHz and
three quarters of the crystal's frequency. -/
def boardClockRegs : ClockRegs
  | .cpuPllCfg => BitVec.ofNat 32 (26 <<< 6 + 1 <<< 12)
  | .ddrPllCfg => BitVec.ofNat 32 (16 <<< 10 + 1 <<< 16)
  | .ddrPllDither => BitVec.ofNat 32 (768 <<< 10)
  | .cpuDdrClkCtrl => bit 20 ||| bit 21 ||| bit 24 ||| bit 15
  | .spiCtrl => 1
  | _ => 0

example : (qca953xClockInfoInit boardClockRegs).map Prod.fst =
    some ⟨650000000, 418750000, 209375000, 25000000, 52343750, 650000000⟩ := by
  decide +kernel

/-- The frequencies of that board. -/
theorem qca953xClockInfoInit_board :
    ∃ info regs', qca953xClockInfoInit boardClockRegs = some (info, regs') ∧
      info.cpuClk = ⌊idealCpuClk boardClockRegs⌋₊ ∧
      info.ddrClk = ⌊idealDdrClk boardClockRegs⌋₊ ∧
      info.ahbClk = ⌊idealAhbClk boardClockRegs⌋₊ ∧
      info.spiClk = ⌊idealSpiClk boardClockRegs⌋₊ :=
  qca953xClockInfoInit_exact (by decide +kernel) (by decide +kernel)

end RtBoot
