import BinMarket.Defaults
import BinMarket.Proofs.Bitmap.Exact
import BinMarket.Proofs.Deposit.NoBins
import BinMarket.Proofs.Price.Bracket
import BinMarket.Proofs.Price.RoundTrip

/-!
Ranges of bins that price ranges stand for. The lower bound never ends above the upper one, and a
range around the active price keeps the active bin: its prices have fewer digits than the active one
has, but what this moves them by is far less than a bin.
-/

namespace BinMarket

open Decimal
open Real (log logb)

variable {step active lowest highest m n : ℤ} {b l price current fraction y : Decimal} {v w c : ℝ}

namespace Decimal

variable {p : Nat}

theorem Rounds.abs_log_sub_log_le (hp : 0 < p) (h : Rounds p v w) (hv : 10 ^ minExponent ≤ v) :
    |log w - log v| ≤ 10 ^ (1 - p : ℤ) := by
  have hpos := (ten_zpow_pos _).trans_le hv
  have hone : (10 : ℝ) ^ (1 - p : ℤ) ≤ 1 := zpow_le_one_of_nonpos₀ (by norm_num) (by omega)
  have hnear := h.near hp
  rw [abs_sub_comm, abs_of_pos hpos, max_eq_left hv] at hnear
  refine (Decimal.abs_log_sub_log_le hpos (by linarith) hnear).trans_eq ?_
  ring

-- What is rounded from no more than a normal number is hardly more than that number, and what is
-- rounded from no less is hardly less.
theorem Rounds.log_le (hp : 0 < p) (h : Rounds p v w) (hw : 0 < w) (hv : v ≤ c)
    (hc : 10 ^ minExponent ≤ c) : log w ≤ log c + 10 ^ (1 - p : ℤ) := by
  rcases le_total (10 ^ minExponent) v with hnormal | hsmall
  · have hclose := (abs_le.mp (h.abs_log_sub_log_le hp hnormal)).right
    have hlog := Real.log_le_log ((ten_zpow_pos _).trans_le hnormal) hv
    linarith
  · have hfits : Fits p (10 ^ minExponent) := .ten_zpow hp (by rw [tiny]; omega)
    have hle := (h.mono (.of_fits hfits) hsmall).trans hc
    linarith [Real.log_le_log hw hle, ten_zpow_pos (1 - p)]

theorem Rounds.le_log (hp : 0 < p) (h : Rounds p v w) (hv : c ≤ v) (hc : 10 ^ minExponent ≤ c) :
    log c - 10 ^ (1 - p : ℤ) ≤ log w := by
  have hclose := (abs_le.mp (h.abs_log_sub_log_le hp (hc.trans hv))).left
  have hlog := Real.log_le_log ((ten_zpow_pos _).trans_le hc) hv
  linarith

end Decimal

namespace Price.IsBase

-- The bin below a price is not above it, and the bin above it is not below it, but for what is lost
-- in rounding. This needs no price to be in the range of decimals.
theorem le_logb (h : IsBase step b l) (hstep : 0 < step)
    (hm : toBin step (.decimal price) true = .ok m) : m ≤ logb b.value price.value + 1 / 4 := by
  obtain ⟨_, _, r, _, hr, rfl⟩ := (toBin_eq_ok_iff h hstep).mp hm
  have hfloor : ((whole true r.value : ℤ) : ℝ) ≤ r.value := by
    exact_mod_cast Int.floor_le r.value
  linarith [(abs_le.mp hr.within_quarter).left]

theorem logb_le (h : IsBase step b l) (hstep : 0 < step)
    (hn : toBin step (.decimal price) false = .ok n) : logb b.value price.value ≤ n + 1 / 4 := by
  obtain ⟨_, _, r, _, hr, rfl⟩ := (toBin_eq_ok_iff h hstep).mp hn
  have hceil : (r.value : ℝ) ≤ (whole false r.value : ℤ) := by
    exact_mod_cast Int.le_ceil r.value
  linarith [(abs_le.mp hr.within_quarter).right]

theorem toBin_le_toBin {lower upper : Decimal} (h : IsBase step b l) (hstep : 0 < step)
    (hle : lower.value ≤ upper.value) (hm : toBin step (.decimal lower) true = .ok m)
    (hn : toBin step (.decimal upper) false = .ok n) : m ≤ n := by
  have ⟨_, hpos, _⟩ := (toBin_eq_ok_iff h hstep).mp hm
  have hlogb := Real.logb_le_logb_of_le h.one_lt (by exact_mod_cast hpos)
    (show (lower.value : ℝ) ≤ upper.value by exact_mod_cast hle)
  have hlt : (m : ℝ) < n + 1 := by linarith [h.le_logb hstep hm, h.logb_le hstep hn]
  exact Int.lt_add_one_iff.mp (by exact_mod_cast hlt)

end Price.IsBase

namespace PriceRange

variable {r : PriceRange} {lower upper : Decimal}

-- Bounds that are numbers are in order.
theorem lower_le_upper (r : PriceRange) (hlower : r.lower.IsFinite) (hupper : r.upper.IsFinite) :
    r.lower.value ≤ r.upper.value := by
  have h := r.ordered
  rw [gt_eq hlower hupper, Except.ok.injEq, decide_eq_false_iff_not, not_lt] at h
  exact h

section Moved

variable (hcurrent : current.IsFinite) (h : moved current fraction = .ok y)
include hcurrent h

-- A price moved by something that is not a finite number is not finite either.
theorem isFinite_of_moved (hy : y.IsFinite) : fraction.IsFinite := by
  have ⟨sum, hsum, hmul⟩ := bind_eq_ok_iff.mp h
  cases hcurrent
  case intro s c e =>
  cases fraction
  case finite     => exact .intro
  case infinity t =>
    cases hsum
    simp only [mul, nanResult?] at hmul
    split at hmul
    case isTrue  => contradiction
    case isFalse =>
      cases hmul
      contradiction
  case nan g t k  =>
    cases g
    case true  => cases hsum
    case false =>
      cases hsum
      cases hmul
      contradiction

theorem rounds_of_moved (hfraction : fraction.IsFinite) :
    ∃ sum : ℝ, Rounds readingDigits (1 + fraction.value) sum ∧
      Rounds readingDigits (current.value * sum) y.value := by
  have ⟨sum, hsum, hmul⟩ := bind_eq_ok_iff.mp h
  have hone : ((one.value : ℚ) : ℝ) = 1 := by norm_num [one, value, signed]
  have hadd := add_rounded (p := readingDigits) (by decide) (x := one) .intro hfraction
  rw [hsum, hone] at hadd
  have hprod := mul_rounded (p := readingDigits) (by decide) hcurrent hadd.isFinite
  rw [hmul] at hprod
  exact ⟨sum.value, hadd.rounds, hprod.rounds⟩

end Moved

theorem moved_mono {fraction' y' : Decimal} (hcurrent : current.IsFinite) (hpos : 0 < current.value)
    (h : moved current fraction = .ok y) (h' : moved current fraction' = .ok y')
    (hfin : fraction.IsFinite) (hfin' : fraction'.IsFinite)
    (hle : fraction.value ≤ fraction'.value) : y.value ≤ y'.value := by
  have ⟨sum, hsum, hy⟩ := rounds_of_moved hcurrent h hfin
  have ⟨sum', hsum', hy'⟩ := rounds_of_moved hcurrent h' hfin'
  have hle : (1 + fraction.value : ℝ) ≤ 1 + fraction'.value := by
    have : (fraction.value : ℝ) ≤ fraction'.value := by exact_mod_cast hle
    linarith
  have hpos : (0 : ℝ) ≤ current.value := by exact_mod_cast hpos.le
  have hprod := mul_le_mul_of_nonneg_left (hsum.mono hsum' hle) hpos
  exact_mod_cast hy.mono hy' hprod

theorem log_moved_le (hcurrent : current.IsFinite) (hnormal : 10 ^ minExponent ≤ (current.value : ℝ))
    (h : moved current fraction = .ok y) (hfin : fraction.IsFinite) (hle : fraction.value ≤ 0)
    (hy : 0 < y.value) : log y.value ≤ log current.value + 1 / 10 ^ 27 := by
  have ⟨sum, hsum, hprod⟩ := rounds_of_moved hcurrent h hfin
  have hle : (fraction.value : ℝ) ≤ 0 := by exact_mod_cast hle
  have hone : sum ≤ 1 := hsum.mono (.of_fits (.one (by decide))) (by linarith)
  have hless := mul_le_of_le_one_right ((ten_zpow_pos _).le.trans hnormal) hone
  refine (hprod.log_le (by decide) (by exact_mod_cast hy) hless hnormal).trans_eq ?_
  norm_num [readingDigits]

theorem le_log_moved (hcurrent : current.IsFinite) (hnormal : 10 ^ minExponent ≤ (current.value : ℝ))
    (h : moved current fraction = .ok y) (hfin : fraction.IsFinite) (hle : 0 ≤ fraction.value) :
    log current.value - 1 / 10 ^ 27 ≤ log y.value := by
  have ⟨sum, hsum, hprod⟩ := rounds_of_moved hcurrent h hfin
  have hle : (0 : ℝ) ≤ fraction.value := by exact_mod_cast hle
  have hone : 1 ≤ sum := hsum.le_of_fits (.one (by decide)) (by linarith)
  have hmore := le_mul_of_one_le_right ((ten_zpow_pos _).le.trans hnormal) hone
  refine le_trans (le_of_eq ?_) (hprod.le_log (by decide) hmore hnormal)
  norm_num [readingDigits]

-- The modes that ask for prices around the active one.
def IsAround (r : PriceRange) : Prop := r.mode = .percent ∨ r.mode = .bps

theorem IsAround.isPriced (h : r.IsAround) : r.IsPriced := by
  constructor <;> rcases h with h | h <;> rw [h] <;> decide

theorem IsAround.prices_eq (h : r.IsAround) (current : Decimal) :
    r.prices current = do
      if ← le current zero then throw (.invalid (.currentPriceNotPositive current))
      return (← moved current r.lower, ← moved current r.upper) := by
  rcases h with h | h <;> rw [prices, h]

theorem IsAround.prices_eq_ok_iff (h : r.IsAround) (hcurrent : current.IsFinite) :
    r.prices current = .ok (lower, upper) ↔ 0 < current.value ∧
      moved current r.lower = .ok lower ∧ moved current r.upper = .ok upper := by
  rw [h.prices_eq, ←le_zero_eq_false_iff hcurrent]
  constructor
  case mp =>
    intro hok
    have ⟨t, ht, hok⟩ := bind_eq_ok_iff.mp hok
    cases t
    case true  => contradiction
    case false =>
      have ⟨_, hlower, hok⟩ := bind_eq_ok_iff.mp hok
      have ⟨_, hupper, hok⟩ := bind_eq_ok_iff.mp hok
      cases hok
      exact ⟨eq_ok_of_liftM ht, eq_ok_of_liftM hlower, eq_ok_of_liftM hupper⟩
  case mpr =>
    intro ⟨hle, hlower, hupper⟩
    rw [hle, hlower, hupper]
    rfl

theorem IsPriced.isAround (h : r.IsPriced) (hmode : r.mode ≠ .absolute) : r.IsAround := by
  have ⟨h₁, h₂⟩ := h
  unfold IsAround
  cases hm : r.mode <;> simp_all

theorem lower_le_of_prices (h : r.IsPriced) (hcurrent : current.IsFinite)
    (hprices : r.prices current = .ok (lower, upper)) (hlower : lower.IsFinite)
    (hupper : upper.IsFinite) : lower.value ≤ upper.value := by
  by_cases hmode : r.mode = .absolute
  case pos =>
    cases hprices.symm.trans (prices_of_absolute hmode current)
    exact r.lower_le_upper hlower hupper
  case neg =>
    have ⟨hpos, hl, hu⟩ := ((h.isAround hmode).prices_eq_ok_iff hcurrent).mp hprices
    have hlfin := isFinite_of_moved hcurrent hl hlower
    have hufin := isFinite_of_moved hcurrent hu hupper
    exact moved_mono hcurrent hpos hl hu hlfin hufin (r.lower_le_upper hlfin hufin)

theorem lowest_le_highest (h : r.binBounds active step = .ok (lowest, highest)) :
    lowest ≤ highest := by
  by_cases hpriced : r.IsPriced
  case pos =>
    have ⟨current, lower, upper, hcurrent, hprices, hlowest, hhighest⟩ :=
      (binBounds_eq_ok_iff hpriced).mp h
    have ⟨b, hb, hstep, _⟩ := Price.value_of_ofBin hcurrent
    have ⟨l, hl⟩ := Price.exists_isBase hstep hb
    have ⟨hlower, _⟩ := (Price.toBin_eq_ok_iff hl hstep).mp hlowest
    have ⟨hupper, _⟩ := (Price.toBin_eq_ok_iff hl hstep).mp hhighest
    have hle := lower_le_of_prices hpriced (Price.isFinite_of_ofBin hcurrent) hprices hlower hupper
    exact hl.toBin_le_toBin hstep hle hlowest hhighest
  case neg =>
    unfold binBounds at h
    split at h
    case h_1 =>
      cases h
      exact le_rfl
    case h_2 =>
      have ⟨k, hk, h⟩ := bind_eq_ok_iff.mp h
      have ⟨k', hk', h⟩ := bind_eq_ok_iff.mp h
      cases h
      have hk := eq_ok_of_liftM hk
      have hk' := eq_ok_of_liftM hk'
      have hlower := isFinite_of_truncate hk
      have hupper := isFinite_of_truncate hk'
      rw [truncate_eq hlower] at hk
      rw [truncate_eq hupper] at hk'
      cases hk
      cases hk'
      exact Int.add_le_add_left (truncate_mono (r.lower_le_upper hlower hupper)) active
    case h_3 h₁ h₂ => exact absurd ⟨h₁, h₂⟩ hpriced

theorem active_mem_of_isAround (h : r.IsAround)
    (hok : r.binBounds active step = .ok (lowest, highest)) (hlower : r.lower.le zero = .ok true)
    (hupper : zero.le r.upper = .ok true) (hprice : Price.ofBin step active = .ok price)
    (hnormal : price.IsNormal) : lowest ≤ active ∧ active ≤ highest := by
  have ⟨current, lower, upper, hcurrent, hprices, hlowest, hhighest⟩ :=
    (binBounds_eq_ok_iff h.isPriced).mp hok
  obtain rfl : current = price := Except.ok.inj (hcurrent.symm.trans hprice)
  have ⟨b, hb, hstep, hnear⟩ := Price.nearBin_of_ofBin hprice hnormal
  have ⟨l, hl⟩ := Price.exists_isBase hstep hb
  have ⟨_, hmoved, hmoved'⟩ := (h.prices_eq_ok_iff hnear.finite).mp hprices
  have ⟨hfin, hpos, _⟩ := (Price.toBin_eq_ok_iff hl hstep).mp hlowest
  have ⟨hfin', _, _⟩ := (Price.toBin_eq_ok_iff hl hstep).mp hhighest
  have hlfin := isFinite_of_moved hnear.finite hmoved hfin
  have hufin := isFinite_of_moved hnear.finite hmoved' hfin'
  have hlog := hl.log_ge
  have ⟨hclose, hclose'⟩ := abs_le.mp hnear.close
  constructor
  case left =>
    have hle : r.lower.value ≤ 0 := by
      rw [le_eq hlfin (y := zero) .intro, value_zero] at hlower
      exact of_decide_eq_true (Except.ok.inj hlower)
    have hless := log_moved_le hnear.finite hnear.low hmoved hlfin hle hpos
    have hlogb : logb b.value lower.value ≤ active + 1 / 4 := by
      rw [logb, div_le_iff₀ (by linarith)]
      linarith
    have hlt : (lowest : ℝ) < active + 1 := by linarith [hl.le_logb hstep hlowest]
    exact Int.lt_add_one_iff.mp (by exact_mod_cast hlt)
  case right =>
    have hle : 0 ≤ r.upper.value := by
      rw [le_eq (x := zero) .intro hufin, value_zero] at hupper
      exact of_decide_eq_true (Except.ok.inj hupper)
    have hmore := le_log_moved hnear.finite hnear.low hmoved' hufin hle
    have hlogb : active - 1 / 4 ≤ logb b.value upper.value := by
      rw [logb, le_div_iff₀ (by linarith)]
      linarith
    have hlt : (active : ℝ) < highest + 1 := by linarith [hl.logb_le hstep hhighest]
    exact Int.lt_add_one_iff.mp (by exact_mod_cast hlt)

-- A range that has no bins fails for its arguments or its arithmetic.
section NoBins

theorem liftM_ne_noBins {α : Type} (x : Except Failure α) :
    (liftM x : Except Fault α) ≠ .error .noBins := by
  cases x <;> nofun

theorem checkStep_ne_noBins (step : ℤ) : Price.checkStep step ≠ .error .noBins := by
  unfold Price.checkStep
  split <;> nofun

theorem ofBin_ne_noBins (step bin : ℤ) : Price.ofBin step bin ≠ .error .noBins :=
  bind_ne_error (checkStep_ne_noBins step) fun _ _ =>
    bind_ne_error (liftM_ne_noBins _) fun _ _ => liftM_ne_noBins _

theorem toBin_ne_noBins (step : ℤ) (given : Price.Given) (roundDown : Bool) :
    Price.toBin step given roundDown ≠ .error .noBins := by
  refine bind_ne_error (checkStep_ne_noBins step) fun _ _ => ?_
  refine bind_ne_error (liftM_ne_noBins _) fun _ _ => ?_
  refine bind_ne_error (liftM_ne_noBins _) fun t _ => ?_
  cases t
  case true  => nofun
  case false =>
    refine bind_ne_error (liftM_ne_noBins _) fun _ _ => ?_
    cases roundDown <;> exact liftM_ne_noBins _

theorem prices_ne_noBins (r : PriceRange) (current : Decimal) :
    r.prices current ≠ .error .noBins := by
  by_cases h : r.IsAround
  case pos =>
    rw [h.prices_eq]
    refine bind_ne_error (liftM_ne_noBins _) fun t _ => ?_
    cases t
    case true  => nofun
    case false =>
      refine bind_ne_error (liftM_ne_noBins _) fun _ _ => ?_
      exact bind_ne_error (liftM_ne_noBins _) fun _ _ => nofun
  case neg =>
    unfold prices
    split
    case h_1 => nofun
    case h_2 hmode => exact absurd (.inl hmode) h
    case h_3 hmode => exact absurd (.inr hmode) h
    case h_4 => nofun

theorem binBounds_ne_noBins (r : PriceRange) (active step : ℤ) :
    r.binBounds active step ≠ .error .noBins := by
  unfold binBounds
  split
  case h_1 => nofun
  case h_2 =>
    refine bind_ne_error (liftM_ne_noBins _) fun _ _ => ?_
    exact bind_ne_error (liftM_ne_noBins _) fun _ _ => nofun
  case h_3 =>
    refine bind_ne_error (ofBin_ne_noBins step active) fun _ _ => ?_
    refine bind_ne_error (prices_ne_noBins r _) fun _ _ => ?_
    refine bind_ne_error (toBin_ne_noBins step _ _) fun _ _ => ?_
    exact bind_ne_error (toBin_ne_noBins step _ _) fun _ _ => nofun

end NoBins

theorem strategyShape_ne_noBins (r : PriceRange) (pool : Pool) (strategy : ℤ) :
    Defaults.strategyShape pool r strategy ≠ .error .noBins := by
  refine bind_ne_error (r.binBounds_ne_noBins _ _) fun (lowest, highest) hbounds => ?_
  refine bind_ne_error ?_ fun strategy _ => strategy.shape_ne_noBins _ (lowest_le_highest hbounds)
  unfold Strategy.ofNumber
  split <;> nofun

-- 1. The bounds of a range are in order when it has any, and those of a range around the active
--    price have the active bin between them.
-- 2. No strategy is ever asked for a shape over no bins.
theorem binBounds_ordered (r : PriceRange) :
    (∀ active step lowest highest, r.binBounds active step = .ok (lowest, highest) →
      lowest ≤ highest ∧
      (r.IsAround → r.lower.le zero = .ok true → zero.le r.upper = .ok true →
        ∀ price, Price.ofBin step active = .ok price → price.IsNormal →
          lowest ≤ active ∧ active ≤ highest)) ∧
    ∀ (pool : Pool) (strategy : ℤ),
      Defaults.strategyShape pool r strategy ≠ .error .noBins ∧
      ∀ lowest highest, r.binBounds pool.activeId pool.binStep = .ok (lowest, highest) →
        binsFrom lowest highest ≠ [] ∧
        Defaults.strategyShape pool r strategy =
          (Strategy.ofNumber strategy >>= (·.shape pool.activeId (binsFrom lowest highest))) := by
  constructor
  case left =>
    intro active step lowest highest hok
    refine ⟨lowest_le_highest hok, ?_⟩
    intro haround hlower hupper price hprice hnormal
    exact active_mem_of_isAround haround hok hlower hupper hprice hnormal
  case right =>
    intro pool strategy
    refine ⟨strategyShape_ne_noBins r pool strategy, fun lowest highest hok => ⟨?_, ?_⟩⟩
    · rw [binsFrom_eq_cons (lowest_le_highest hok)]
      exact List.cons_ne_nil _ _
    · rw [Defaults.strategyShape, hok]
      rfl

-- One percent to either side.
def onePercent : PriceRange where
  lower   := finite true 1 (-2)
  upper   := finite false 1 (-2)
  mode    := .percent
  ordered := by decide +kernel

-- Around bin 75, with bins of ten ten thousandths.
theorem binBounds_ordered_onePercent :
    onePercent.binBounds 75 10 = .ok (64, 85) ∧
    (64 : ℤ) ≤ 85 ∧ (64 : ℤ) ≤ 75 ∧ (75 : ℤ) ≤ 85 ∧
    Defaults.strategyShape Pool.sparse onePercent 0 ≠ .error .noBins ∧
    binsFrom 64 85 ≠ [] ∧
    Defaults.strategyShape Pool.sparse onePercent 0 =
      Strategy.spot.shape 75 (binsFrom 64 85) := by
  have hprice : Price.ofBin 10 75 =
      .ok (finite false 10778437579127513773332027616725720022930886798495 (-49)) := by
    decide +kernel
  have hnormal :
      IsNormal (finite false 10778437579127513773332027616725720022930886798495 (-49)) := by
    decide +kernel
  have hok : onePercent.binBounds 75 10 = .ok (64, 85) := by decide +kernel
  have ⟨hbounds, hshapes⟩ := onePercent.binBounds_ordered
  have ⟨hle, haround⟩ := hbounds _ _ _ _ hok
  have ⟨hlow, hhigh⟩ := haround (.inl rfl) (by decide +kernel) (by decide +kernel) _ hprice hnormal
  have ⟨hnever, hhanded⟩ := hshapes Pool.sparse 0
  have ⟨hbins, hshape⟩ := hhanded _ _ hok
  exact ⟨hok, hle, hlow, hhigh, hnever, hbins, hshape⟩

end PriceRange

end BinMarket
