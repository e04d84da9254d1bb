import BinMarket.Proofs.Fee.Decay
import BinMarket.Proofs.Outcome

/-!
The current fee beside the overview of a pool. It never exceeds the cap, and it is the base fee at
least, as long as the base fee itself does not exceed the cap. The base fee is shown without the cap,
although no swap is ever charged more.
-/

namespace BinMarket

open Decimal

variable {p : Pool} {part part' whole rate now : ℤ} {x x' : Decimal}

theorem rounds_of_percentage (hw : whole ≠ 0) (h : percentage part whole = .ok x) :
    ∃ y : ℝ, Rounds readingDigits (part * 100) y ∧ Rounds readingDigits (y / whole) x.value := by
  have ⟨y, hy, hx⟩ := bind_eq_ok_iff.mp h
  have hmul := scaled_rounded part
  rw [hy] at hmul
  have hdiv := divided_rounded hmul.isFinite hw
  rw [hx] at hdiv
  exact ⟨y.value, hmul.rounds, hdiv.rounds⟩

-- Neither of the two roundings of a percentage turns the order of two parts around.
theorem percentage_mono (hw : 0 < whole) (h : percentage part whole = .ok x)
    (h' : percentage part' whole = .ok x') (hle : part ≤ part') : x.value ≤ x'.value := by
  have ⟨y, hy, hx⟩ := rounds_of_percentage hw.ne' h
  have ⟨y', hy', hx'⟩ := rounds_of_percentage hw.ne' h'
  have hpart : (part * 100 : ℝ) ≤ part' * 100 := by
    have : (part : ℝ) ≤ part' := by exact_mod_cast hle
    linarith
  have hquot : y / whole ≤ y' / whole :=
    div_le_div_of_nonneg_right (hy.mono hy' hpart) (by exact_mod_cast hw.le)
  exact_mod_cast hx.mono hx' hquot

-- A part whose hundredfold is in the range of decimals, so that its percentage can be read out.
def Legible (part : ℤ) : Prop := |(part * 100 : ℝ)| < limit readingDigits

theorem legible_of_lt (h : |part| < 10 ^ 40) : Legible part := by
  have hpart : |(part * 100 : ℝ)| < 10 ^ 42 := by
    have h : |(part : ℝ)| < 10 ^ 40 := by exact_mod_cast h
    rw [abs_mul]
    norm_num at h ⊢
    linarith
  have hmax : (10 : ℝ) ^ 42 ≤ 10 ^ maxExponent := by
    rw [←zpow_natCast]
    exact zpow_le_zpow_right₀ (by norm_num) (by decide)
  exact hpart.trans_le (hmax.trans (ten_zpow_le_limit (by decide)))

theorem Legible.exists_percentage (h : Legible part) (hw : 0 < whole) :
    ∃ x, percentage part whole = .ok x ∧ x.IsFinite := by
  have hmul := scaled_rounded part
  have ⟨y, hy, hyf, _⟩ := hmul.exists_ok h
  rw [hy] at hmul
  have hone : (1 : ℝ) ≤ |(whole : ℝ)| := by exact_mod_cast Int.one_le_abs hw.ne'
  have hsmall : |(y.value / whole : ℝ)| < limit readingDigits := by
    rw [abs_div]
    exact (div_le_self (abs_nonneg _) hone).trans_lt hmul.lt_limit
  have ⟨x, hx, hxf, _⟩ := (divided_rounded hyf hw.ne').exists_ok hsmall
  exact ⟨x, bind_eq_ok_iff.mpr ⟨y, hy, hx⟩, hxf⟩

namespace DynamicFee

theorem exists_percentage_maxRate :
    ∃ x, percentage maxRate = .ok x ∧ x.IsFinite ∧ x.value = 10 := by
  obtain ⟨x, hx, hxf, hv⟩ := percentage_eq (show |maxRate| < 10 ^ 26 by decide)
  exact ⟨x, hx, hxf, by rw [hv, maxRate]; norm_num⟩

-- A rate above the cap is read out as more than ten percent, however often it is rounded.
theorem percentage_le_ten_iff (h : percentage rate = .ok x) : x.value ≤ 10 ↔ rate ≤ maxRate := by
  constructor
  case mp =>
    intro hx
    by_contra! hlt
    obtain ⟨y, hy, _, hv⟩ := percentage_eq (show |maxRate + 1| < 10 ^ 26 by decide)
    have hle : y.value ≤ x.value := percentage_mono ratePrecision_pos hy h hlt
    rw [hv, maxRate] at hle
    norm_num at hle
    linarith
  case mpr =>
    intro hle
    obtain ⟨y, hy, _, hv⟩ := exists_percentage_maxRate
    exact (percentage_mono ratePrecision_pos h hy hle).trans hv.le

theorem min_percentage_ten (h₀ : 0 ≤ rate) (h : percentage rate = .ok x) :
    min x.value 10 = (min rate maxRate : ℤ) / 10 ^ 7 := by
  by_cases hle : rate ≤ maxRate
  case pos =>
    have hsmall : |rate| < 10 ^ 26 := by
      rw [abs_of_nonneg h₀]
      exact hle.trans_lt (by decide)
    have ⟨y, hy, _, hv⟩ := percentage_eq hsmall
    obtain rfl : y = x := Except.ok.inj (hy.symm.trans h)
    rw [min_eq_left hle, min_eq_left ((percentage_le_ten_iff h).mpr hle), hv]
  case neg =>
    have hten : ¬x.value ≤ 10 := mt (percentage_le_ten_iff h).mp hle
    rw [min_eq_right (not_le.mp hle).le, min_eq_right (not_le.mp hten).le, maxRate]
    norm_num

-- At rest nothing is added to the base rate.
theorem rate_of_accumulator_eq_zero {f : DynamicFee} (h : f.state.accumulator = 0) :
    f.rate = min f.baseRate maxRate := by
  have hv : f.variableRate = 0 := by
    rw [variableRate, h]
    split
    case isTrue  => rfl
    case isFalse => simp [variablePrecision]
  rw [rate, hv, add_zero]

end DynamicFee

namespace Pool

open DynamicFee

theorem baseRate_feeAt (p : Pool) (now : ℤ) : (p.feeAt now).baseRate = (ofPool p).baseRate := by
  simp only [baseRate, feeAt, track_parameters, track_binStep, refresh_parameters, refresh_binStep]

theorem charges_ofPool (hb : 0 ≤ p.fees.baseFactor) : (ofPool p).Charges :=
  ⟨p.binStep_pos.le, hb⟩

-- A base factor and a step of 18 digits each are far from being too large.
theorem legible_baseRate (hb : 0 ≤ p.fees.baseFactor) (hlt : p.fees.baseFactor < 10 ^ 18)
    (hstep : p.binStep < 10 ^ 18) : Legible (ofPool p).baseRate := by
  refine legible_of_lt ?_
  have hprod : p.fees.baseFactor * p.binStep ≤ 10 ^ 18 * 10 ^ 18 :=
    mul_le_mul hlt.le hstep.le p.binStep_pos.le (by norm_num)
  rw [abs_of_nonneg (charges_ofPool hb).baseRate_nonneg, baseRate, ofPool]
  norm_num at hprod ⊢
  linarith

theorem exists_feeInfo (hbase : Legible (ofPool p).baseRate)
    (hshare : Legible p.fees.protocolShare) : ∃ info, p.feeInfo = .ok info ∧
      DynamicFee.percentage (ofPool p).baseRate = .ok info.base ∧ info.base.IsFinite ∧
      info.max.IsFinite ∧ info.max.value = 10 := by
  have ⟨base, hb, hbf⟩ := hbase.exists_percentage ratePrecision_pos
  have ⟨max, hm, hmf, hv⟩ := exists_percentage_maxRate
  have ⟨protocol, hp, _⟩ := hshare.exists_percentage basisPoints_pos
  refine ⟨⟨base, max, protocol⟩, ?_, hb, hbf, hmf, hv⟩
  rw [feeInfo, DynamicFee.percentage, hb, hm, hp]
  rfl

-- The fee that a swap would pay and the overview, of a pool whose fees can be read out:
-- 1. The current fee is never above the cap
-- 2. It is the lesser one of the base fee and the cap at least, and just that at rest
-- 3. The base fee of the overview is no more than the current fee exactly if the base rate is within
--    the cap
theorem currentFee_between (hb : 0 ≤ p.fees.baseFactor) (hbase : Legible (ofPool p).baseRate)
    (hshare : Legible p.fees.protocolShare) (now : ℤ) :
    ∃ info percent, p.feeInfo = .ok info ∧ p.currentFee now = .ok percent ∧
      percent.value ≤ info.max.value ∧ percent.le info.max = .ok true ∧
      min info.base.value info.max.value ≤ percent.value ∧
      ((p.feeAt now).state.accumulator = 0 → percent.value = min info.base.value info.max.value) ∧
      (info.base.value ≤ percent.value ↔ (ofPool p).baseRate ≤ maxRate) ∧
      info.base.le percent = .ok (decide ((ofPool p).baseRate ≤ maxRate)) := by
  have ⟨info, hinfo, hread, hbf, hmf, hmax⟩ := exists_feeInfo hbase hshare
  have ⟨percent, hpercent, hpf, hv⟩ := currentFee_eq hb now
  have hmin := min_percentage_ten (charges_ofPool hb).baseRate_nonneg hread
  have hcap : percent.value ≤ info.max.value := by
    have : ((p.feeAt now).rate : ℚ) ≤ maxRate := by exact_mod_cast (p.feeAt now).rate_le
    rw [hv, hmax, div_le_iff₀ (by norm_num)]
    exact this.trans (by norm_num [maxRate])
  have hfloor : min info.base.value info.max.value ≤ percent.value := by
    have hrate := (p.feeAt now).min_baseRate_le_rate
    rw [baseRate_feeAt] at hrate
    rw [hmax, hmin, hv]
    exact div_le_div_of_nonneg_right (by exact_mod_cast hrate) (by norm_num)
  have hiff : info.base.value ≤ percent.value ↔ (ofPool p).baseRate ≤ maxRate := by
    rw [←percentage_le_ten_iff hread, ←hmax]
    constructor
    case mp  => exact fun h => h.trans hcap
    case mpr => exact fun h => (min_eq_left h).symm.trans_le hfloor
  refine ⟨info, percent, hinfo, hpercent, hcap, ?_, hfloor, ?rest, hiff, ?_⟩
  · rw [le_eq hpf hmf, decide_eq_true hcap]
  case rest =>
    intro hzero
    rw [hmax, hmin, hv, rate_of_accumulator_eq_zero hzero, baseRate_feeAt]
  · rw [le_eq hbf hpf, decide_eq_decide.mpr hiff]

-- A pool with a base fee of one percent, 2.6 percent while it is agitated and one percent at rest.
theorem currentFee_between_calming :
    0 ≤ calming.fees.baseFactor ∧ Legible (ofPool calming).baseRate ∧
    Legible calming.fees.protocolShare ∧ (calming.feeAt 2000).state.accumulator = 0 ∧
    ∃ info agitated calm, calming.feeInfo = .ok info ∧ calming.currentFee 900 = .ok agitated ∧
      calming.currentFee 2000 = .ok calm ∧ info.base.value = 1 ∧ info.max.value = 10 ∧
      info.base.le agitated = .ok true ∧ agitated.le info.max = .ok true ∧
      calm.value = min info.base.value info.max.value := by
  have hb : 0 ≤ calming.fees.baseFactor := by decide
  have hbase := legible_baseRate (p := calming) hb (by decide) (by decide)
  have hshare : Legible calming.fees.protocolShare := legible_of_lt (by decide)
  have hzero : (calming.feeAt 2000).state.accumulator = 0 := by decide
  have hread : calming.feeInfo = .ok ⟨finite false 1 0, finite false 10 0, finite false 0 0⟩ := by
    decide +kernel
  have ⟨info, agitated, hi, ha, _, hcap, _, _, _, hfloor⟩ :=
    currentFee_between hb hbase hshare 900
  have ⟨info', calm, hi', hc, _, _, _, hrest, _⟩ := currentFee_between hb hbase hshare 2000
  obtain rfl : info' = info := Except.ok.inj (hi'.symm.trans hi)
  obtain rfl := Except.ok.inj (hread.symm.trans hi)
  exact ⟨hb, hbase, hshare, hzero, _, agitated, calm, hi, ha, hc, by norm_num [value, signed],
    by norm_num [value, signed], hfloor, hcap, hrest hzero⟩

-- A base factor and a step that come to twenty percent.
def dear : Pool where
  binStep     := 400
  activeId    := 0
  fees        := { baseFactor := 50000, protocolShare := 500 }
  volatility  := {}
  rewards     := ⟨{}, {}⟩
  accounts    := {}
  words       := Vector.replicate 16 0
  key         := none
  binStep_pos := by decide

-- At rest it charges ten percent, and the overview says that it charges twenty.
theorem dear_base_above_currentFee :
    ∃ info percent, dear.feeInfo = .ok info ∧ dear.currentFee 1000 = .ok percent ∧
      (dear.feeAt 1000).state.accumulator = 0 ∧ info.base.value = 20 ∧ info.max.value = 10 ∧
      percent.value = 10 ∧ ¬info.base.value ≤ percent.value := by
  refine ⟨⟨finite false 20 0, finite false 10 0, finite false 5 0⟩, finite false 10 0, ?_⟩
  have hread : dear.feeInfo = .ok ⟨finite false 20 0, finite false 10 0, finite false 5 0⟩ := by
    decide +kernel
  have hcurrent : dear.currentFee 1000 = .ok (finite false 10 0) := by decide +kernel
  have htwenty : (finite false 20 0).value = 20 := by norm_num [value, signed]
  have hten : (finite false 10 0).value = 10 := by norm_num [value, signed]
  refine ⟨hread, hcurrent, by decide, htwenty, hten, hten, ?_⟩
  rw [htwenty, hten]
  norm_num

end Pool

end BinMarket
