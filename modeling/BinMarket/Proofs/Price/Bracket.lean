import BinMarket.Price.Range
import BinMarket.Proofs.Price.Steps

/-!
Bins bracket prices. The bin below a price and the one above it are next to each other, and the price
lies between the powers of the base that belong to them, but for the last place of a number of steps.
-/

namespace BinMarket

open Decimal
open Real (log logb)

variable {step active lowest highest m n : ℤ} {b l price price' : Decimal} {roundDown : Bool}

namespace Price

-- A price above zero whose leading digit is in the range of exponents, with any number of digits.
inductive InRange : Decimal → Prop
  | intro {c : Nat} {e : ℤ} : 0 < c → minExponent ≤ adjusted c e → adjusted c e ≤ maxExponent →
    InRange (finite false c e)

instance : DecidablePred InRange
  | finite false c e =>
    decidable_of_iff (0 < c ∧ minExponent ≤ adjusted c e ∧ adjusted c e ≤ maxExponent)
      ⟨fun h => .intro h.left h.right.left h.right.right, fun h => by cases h; simp_all⟩
  | finite true ..   => isFalse nofun
  | infinity _       => isFalse nofun
  | nan ..           => isFalse nofun

-- The logarithm of this price is the nearest decimal to the real one.
def LnRounded (price : Decimal) : Prop := Rounded digits (log price.value) (ln digits price)

namespace InRange

theorem isFinite (h : InRange price) : price.IsFinite := by
  cases h
  constructor

theorem low (h : InRange price) : 10 ^ minExponent ≤ (price.value : ℝ) := by
  cases h
  case intro c e hc hmin _ =>
  rw [value_finite]
  exact (zpow_le_zpow_right₀ (by norm_num) hmin).trans (adjusted_le hc)

theorem high (h : InRange price) : (price.value : ℝ) ≤ 10 ^ (maxExponent + 1) := by
  cases h
  case intro c e _ _ hmax =>
  rw [value_finite]
  exact (lt_adjusted c e).le.trans (zpow_le_zpow_right₀ (by norm_num) (by omega))

theorem pos (h : InRange price) : 0 < price.value := by
  exact_mod_cast (ten_zpow_pos _).trans_le h.low

end InRange

-- The two bins of a price, and the powers of the base that it lies between.
structure Brackets (b price : ℝ) (below above : ℤ) : Prop where
  ordered  : below ≤ above
  adjacent : above ≤ below + 1
  low      : b ^ (below - 1 / 10 ^ 20 : ℝ) ≤ price
  lt_next  : price < b ^ (below + 1 : ℝ)
  gt_prev  : b ^ (above - 1 : ℝ) < price
  high     : price ≤ b ^ (above + 1 / 10 ^ 20 : ℝ)

theorem StepsOf.brackets {r : Decimal} (hr : StepsOf b price r) (hb : (1 : ℝ) < b.value)
    (hpos : 0 < price.value) (hsteps : |logb b.value price.value| ≤ 4 * 10 ^ 10) :
    Brackets b.value price.value ⌊r.value⌋ ⌈r.value⌉ := by
  have hpos : (0 : ℝ) < price.value := by exact_mod_cast hpos
  have ⟨h₁, h₂⟩ := abs_le.mp (hr.within_place hsteps)
  have hfloor : (⌊r.value⌋ : ℝ) ≤ r.value := by exact_mod_cast Int.floor_le r.value
  have hceil : (r.value : ℝ) ≤ ⌈r.value⌉ := by exact_mod_cast Int.le_ceil r.value
  -- the next integer is a whole place away, and that is more than what was rounded
  have hnext : (r.value : ℝ) + 1 / 10 ^ 20 ≤ (⌊r.value⌋ + 1 : ℤ) :=
    hr.add_le_of_lt (by exact_mod_cast Int.lt_floor_add_one r.value)
  have hprev : ((⌈r.value⌉ - 1 : ℤ) : ℝ) + 1 / 10 ^ 20 ≤ r.value :=
    hr.add_le_of_gt (by exact_mod_cast sub_lt_iff_lt_add.mpr (Int.ceil_lt_add_one r.value))
  push_cast at hnext hprev
  refine ⟨Int.floor_le_ceil _, Int.ceil_le_floor_add_one _, ?_, ?_, ?_, ?_⟩
  · exact (Real.le_logb_iff_rpow_le hb hpos).mp (by linarith)
  · exact (Real.logb_lt_iff_lt_rpow hb hpos).mp (by linarith)
  · exact (Real.lt_logb_iff_rpow_lt hb hpos).mp (by linarith)
  · exact (Real.logb_le_iff_le_rpow hb hpos).mp (by linarith)

namespace IsBase

theorem exists_brackets (h : IsBase step b l) (hstep : 0 < step) (hprice : InRange price) :
    ∃ below above, toBin step (.decimal price) true = .ok below ∧
      toBin step (.decimal price) false = .ok above ∧
      Brackets b.value price.value below above := by
  have hlog := abs_log_le hprice.low hprice.high
  have ⟨r, hr⟩ := h.exists_steps hprice.isFinite hprice.pos hlog
  have hsteps := h.stepsOf hprice.isFinite hprice.pos hr
  have hbin (roundDown : Bool) :
      toBin step (.decimal price) roundDown = .ok (whole roundDown r.value) :=
    (toBin_eq_ok_iff h hstep).mpr ⟨hprice.isFinite, hprice.pos, r, hr, hsteps, rfl⟩
  exact ⟨_, _, hbin true, hbin false,
    hsteps.brackets h.one_lt hprice.pos (h.abs_logb_le hlog)⟩

-- Each of the roundings keeps the order of what it rounds.
theorem steps_mono {r r' : Decimal} (h : IsBase step b l) (hln : LnRounded price)
    (hln' : LnRounded price') (hpos : 0 < price.value) (hle : price.value ≤ price'.value)
    (hr : steps step price = .ok r) (hr' : steps step price' = .ok r') : r.value ≤ r'.value := by
  have hp : 0 < digits := by decide
  have ⟨k, q, hk, hq, hcut⟩ := h.steps_eq_ok_iff.mp hr
  have ⟨k', q', hk', hq', hcut'⟩ := h.steps_eq_ok_iff.mp hr'
  rw [LnRounded, hk] at hln
  rw [LnRounded, hk'] at hln'
  have hdiv := div_rounded hp hln.isFinite h.finite h.ln_ne_zero
  have hdiv' := div_rounded hp hln'.isFinite h.finite h.ln_ne_zero
  rw [hq] at hdiv
  rw [hq'] at hdiv'
  have hlog : log price.value ≤ log price'.value :=
    Real.log_le_log (by exact_mod_cast hpos) (by exact_mod_cast hle)
  have hquot := hdiv.rounds.mono hdiv'.rounds
    (div_le_div_of_nonneg_right (hln.rounds.mono hln'.rounds hlog) (by linarith [h.ln_ge]))
  have ⟨_, hr, _⟩ := quantize_cut hp hdiv.isFinite hcut
  have ⟨_, hr', _⟩ := quantize_cut hp hdiv'.isFinite hcut'
  exact_mod_cast hr.mono hr' hquot

theorem toBin_mono (h : IsBase step b l) (hstep : 0 < step) (hln : LnRounded price)
    (hln' : LnRounded price') (hle : price.value ≤ price'.value)
    (hm : toBin step (.decimal price) roundDown = .ok m)
    (hn : toBin step (.decimal price') roundDown = .ok n) : m ≤ n := by
  obtain ⟨_, hpos, r, hr, _, rfl⟩ := (toBin_eq_ok_iff h hstep).mp hm
  obtain ⟨_, _, r', hr', _, rfl⟩ := (toBin_eq_ok_iff h hstep).mp hn
  exact whole_mono (h.steps_mono hln hln' hpos hle hr hr')

end IsBase

end Price

namespace PriceRange

variable {r : PriceRange}

-- The modes that ask for prices.
def IsPriced (r : PriceRange) : Prop := r.mode ≠ .oneBin ∧ r.mode ≠ .binRange

theorem prices_of_absolute (h : r.mode = .absolute) (current : Decimal) :
    r.prices current = .ok (r.lower, r.upper) := by
  rw [prices, h]

theorem binBounds_eq_ok_iff (h : r.IsPriced) :
    r.binBounds active step = .ok (lowest, highest) ↔ ∃ current lower upper,
      Price.ofBin step active = .ok current ∧ r.prices current = .ok (lower, upper) ∧
      Price.toBin step (.decimal lower) true = .ok lowest ∧
      Price.toBin step (.decimal upper) false = .ok highest := by
  unfold binBounds
  split
  case h_1 hmode => exact absurd hmode h.left
  case h_2 hmode => exact absurd hmode h.right
  case h_3 =>
    constructor
    case mp =>
      intro hok
      have ⟨current, hcurrent, hok⟩ := bind_eq_ok_iff.mp hok
      have ⟨(lower, upper), hprices, hok⟩ := bind_eq_ok_iff.mp hok
      have ⟨_, hlowest, hok⟩ := bind_eq_ok_iff.mp hok
      have ⟨_, hhighest, hok⟩ := bind_eq_ok_iff.mp hok
      cases hok
      exact ⟨current, lower, upper, hcurrent, hprices, hlowest, hhighest⟩
    case mpr =>
      intro ⟨current, lower, upper, hcurrent, hprices, hlowest, hhighest⟩
      exact bind_eq_ok_iff.mpr ⟨current, hcurrent, bind_eq_ok_iff.mpr ⟨_, hprices,
        bind_eq_ok_iff.mpr ⟨lowest, hlowest, bind_eq_ok_iff.mpr ⟨highest, hhighest, rfl⟩⟩⟩⟩

end PriceRange

namespace Price

-- With a base for the step, every price in range has its two bins.
-- 1. The bins are next to each other and bracket the price.
-- 2. Either of them is no less for a greater price, when both logarithms are rounded correctly.
-- 3. A range between two such prices has bins, and leaves out no price that it asks for.
theorem toBin_brackets (hstep : 0 < step) (hb : base step = .ok b) :
    (∀ price, InRange price → ∃ below above, toBin step (.decimal price) true = .ok below ∧
      toBin step (.decimal price) false = .ok above ∧
      Brackets b.value price.value below above) ∧
    (∀ price price' roundDown m n, LnRounded price → LnRounded price' →
      price.value ≤ price'.value → toBin step (.decimal price) roundDown = .ok m →
      toBin step (.decimal price') roundDown = .ok n → m ≤ n) ∧
    ∀ (r : PriceRange) (active : ℤ) (current : Decimal), r.mode = .absolute → InRange r.lower →
      InRange r.upper → ofBin step active = .ok current →
      ∃ lowest highest, r.binBounds active step = .ok (lowest, highest) ∧
        ∀ v : ℝ, r.lower.value ≤ v → v ≤ r.upper.value →
          (b.value : ℝ) ^ (lowest - 1 / 10 ^ 20 : ℝ) ≤ v ∧
          v ≤ (b.value : ℝ) ^ (highest + 1 / 10 ^ 20 : ℝ) := by
  have ⟨l, hl⟩ := exists_isBase hstep hb
  refine ⟨fun price hprice => hl.exists_brackets hstep hprice, ?mono, ?range⟩
  case mono =>
    intro price price' roundDown m n hln hln' hle hm hn
    exact hl.toBin_mono hstep hln hln' hle hm hn
  case range =>
    intro r active current hmode hlower hupper hcurrent
    have ⟨lowest, _, hlowest, _, hlow⟩ := hl.exists_brackets hstep hlower
    have ⟨_, highest, _, hhighest, hhigh⟩ := hl.exists_brackets hstep hupper
    have hpriced : r.IsPriced := ⟨by rw [hmode]; decide, by rw [hmode]; decide⟩
    refine ⟨lowest, highest, ?_, ?_⟩
    · exact (PriceRange.binBounds_eq_ok_iff hpriced).mpr
        ⟨current, r.lower, r.upper, hcurrent, r.prices_of_absolute hmode current, hlowest, hhighest⟩
    · intro v hlowv hvhigh
      exact ⟨hlow.low.trans hlowv, hvhigh.trans hhigh.high⟩

-- One and a half and two, with bins of 25 ten thousandths.
theorem toBin_brackets_between :
    Brackets (finite false 10025 (-4)).value (finite false 15 (-1)).value 162 163 ∧
    (162 : ℤ) ≤ 277 ∧
    ∃ (r : PriceRange) (lowest highest : ℤ), r.binBounds 0 25 = .ok (lowest, highest) ∧
      ∀ v : ℝ, (finite false 15 (-1)).value ≤ v → v ≤ (finite false 2 0).value →
        ((finite false 10025 (-4)).value : ℝ) ^ (lowest - 1 / 10 ^ 20 : ℝ) ≤ v ∧
        v ≤ ((finite false 10025 (-4)).value : ℝ) ^ (highest + 1 / 10 ^ 20 : ℝ) := by
  have hbase : base 25 = .ok (finite false 10025 (-4)) := by decide +kernel
  have hcurrent : ofBin 25 0 = .ok (finite false 1 0) := by decide +kernel
  have hbelow : toBin 25 (.decimal (finite false 15 (-1))) true = .ok 162 := by decide +kernel
  have habove : toBin 25 (.decimal (finite false 15 (-1))) false = .ok 163 := by decide +kernel
  have hgreater : toBin 25 (.decimal (finite false 2 0)) true = .ok 277 := by decide +kernel
  have hln : LnRounded (finite false 15 (-1)) :=
    ln_rounded_of_settles (by decide) (by decide) (by decide +kernel)
  have hln' : LnRounded (finite false 2 0) :=
    ln_rounded_of_settles (by decide) (by decide) (by decide +kernel)
  have hrange : InRange (finite false 15 (-1)) := by decide +kernel
  have hrange' : InRange (finite false 2 0) := by decide +kernel
  have hle : (finite false 15 (-1)).value ≤ (finite false 2 0).value := by decide +kernel
  have ⟨hbrackets, hmono, hbounds⟩ := toBin_brackets (by decide) hbase
  refine ⟨?_, hmono _ _ true _ _ hln hln' hle hbelow hgreater, ?_⟩
  · have ⟨below, above, hb, ha, h⟩ := hbrackets _ hrange
    cases hb.symm.trans hbelow
    cases ha.symm.trans habove
    exact h
  · have hordered : gt (finite false 15 (-1)) (finite false 2 0) = .ok false := by decide +kernel
    exact ⟨_, hbounds ⟨_, _, .absolute, hordered⟩ 0 _ rfl hrange hrange' hcurrent⟩

end Price

end BinMarket
