import BinMarket.Proofs.Decimal.Order
import BinMarket.Proofs.Fee.Overview
import BinMarket.Proofs.Fee.Updates

/-!
The current fee in the course of time. While nothing is swapped it never rises: within the filter
period it stays as it is, then part of the volatility is forgotten, and after the decay period all of
it.
-/

namespace BinMarket

variable {p : Pool} {f g : DynamicFee} {active t u : Int}

namespace DynamicFee

theorem variableRate_mono (hs : f.binStep = g.binStep) (hp : f.parameters = g.parameters)
    (hstep : 0 ≤ f.binStep) (hf : 0 ≤ f.state.accumulator)
    (hle : f.state.accumulator ≤ g.state.accumulator) : f.variableRate ≤ g.variableRate := by
  by_cases hz : f.parameters.variableControl ≤ 0
  case pos =>
    rw [variableRate, if_pos hz]
    exact g.variableRate_nonneg
  case neg =>
    have hmoved : f.state.accumulator * f.binStep ≤ g.state.accumulator * f.binStep :=
      mul_le_mul_of_nonneg_right hle hstep
    have hsquare := mul_self_le_mul_self (mul_nonneg hf hstep) hmoved
    have := mul_le_mul_of_nonneg_left hsquare (not_le.mp hz).le
    rw [variableRate, variableRate, ←hs, ←hp, if_neg hz, if_neg hz]
    exact Int.ediv_le_ediv (by decide) (by omega)

-- Of two fees that differ in nothing but the volatility, the one with less of it charges less.
theorem rate_mono (hs : f.binStep = g.binStep) (hp : f.parameters = g.parameters)
    (hstep : 0 ≤ f.binStep) (hf : 0 ≤ f.state.accumulator)
    (hle : f.state.accumulator ≤ g.state.accumulator) : f.rate ≤ g.rate := by
  have hbase : f.baseRate = g.baseRate := by rw [baseRate, baseRate, hs, hp]
  exact min_le_min_right _ (add_le_add hbase.le (variableRate_mono hs hp hstep hf hle))

-- The volatility that a swap at the active bin would be charged for.
def accumulatorAt (f : DynamicFee) (active now : Int) : Int :=
  ((f.refresh active now).track active).state.accumulator

theorem accumulatorAt_of_lt (h : t - f.state.updatedAt < f.parameters.filterPeriod) :
    f.accumulatorAt active t = (f.track active).state.accumulator := by
  rw [accumulatorAt, refresh_of_lt h]

-- The references have moved to the active bin, so no distance is added to what stays on.
theorem accumulatorAt_of_le (h : f.parameters.filterPeriod ≤ t - f.state.updatedAt) :
    f.accumulatorAt active t = min (f.kept t) f.parameters.maxAccumulator := by
  rw [accumulatorAt, refresh_of_le h]
  simp [track]

-- A fee state whose volatility has taken up how far the active bin is from the reference bin.
structure UpToDate (f : DynamicFee) (active : Int) : Prop where
  nonneg      : 0 ≤ f.state.accumulator
  accumulator : f.state.accumulator =
                  min (f.state.reference + |f.state.indexReference - active| * basisPoints)
                    f.parameters.maxAccumulator

namespace UpToDate

variable (h : f.UpToDate active)
include h

theorem track_eq : (f.track active).state.accumulator = f.state.accumulator := by
  rw [h.accumulator, track, Int.natCast_natAbs]

theorem maxAccumulator_nonneg : 0 ≤ f.parameters.maxAccumulator :=
  h.nonneg.trans (h.accumulator.le.trans (min_le_right ..))

theorem accumulatorAt_nonneg (hr : f.Reduces) (now : Int) : 0 ≤ f.accumulatorAt active now := by
  by_cases hf : now - f.state.updatedAt < f.parameters.filterPeriod
  case pos =>
    rw [accumulatorAt_of_lt hf, h.track_eq]
    exact h.nonneg
  case neg =>
    rw [accumulatorAt_of_le (not_lt.mp hf)]
    exact le_min (hr.kept_nonneg h.nonneg now) h.maxAccumulator_nonneg

-- What holds within the filter period is no less than what stays on after it, and the less stays on
-- the later it is.
theorem accumulatorAt_anti (hr : f.Reduces) (htu : t ≤ u) :
    f.accumulatorAt active u ≤ f.accumulatorAt active t := by
  by_cases hu : u - f.state.updatedAt < f.parameters.filterPeriod
  case pos =>
    have ht : t - f.state.updatedAt < f.parameters.filterPeriod := by omega
    rw [accumulatorAt_of_lt hu, accumulatorAt_of_lt ht]
  case neg =>
    rw [accumulatorAt_of_le (not_lt.mp hu)]
    by_cases ht : t - f.state.updatedAt < f.parameters.filterPeriod
    case pos =>
      rw [accumulatorAt_of_lt ht, h.track_eq]
      exact (min_le_left ..).trans (hr.kept_le h.nonneg u)
    case neg =>
      rw [accumulatorAt_of_le (not_lt.mp ht)]
      exact min_le_min_right _ (hr.kept_anti h.nonneg htu)

end UpToDate

end DynamicFee

namespace Pool

open DynamicFee

theorem rate_feeAt_anti (hr : (ofPool p).Reduces) (h : (ofPool p).UpToDate p.activeId)
    (htu : t ≤ u) : (p.feeAt u).rate ≤ (p.feeAt t).rate := by
  have hstep (now : Int) : (p.feeAt now).binStep = p.binStep := by
    simp only [feeAt, track_binStep, refresh_binStep, ofPool]
  refine rate_mono ((hstep u).trans (hstep t).symm) ?_ ?_ ?_ ?_
  · rw [parameters_feeAt, parameters_feeAt]
  · exact hstep u ▸ p.binStep_pos.le
  · exact h.accumulatorAt_nonneg hr u
  · exact h.accumulatorAt_anti hr htu

-- Of two read-outs at the same active bin the later one is not higher, as numbers and as decimals.
theorem currentFee_anti (hb : 0 ≤ p.fees.baseFactor) (hr : (ofPool p).Reduces)
    (h : (ofPool p).UpToDate p.activeId) (htu : t ≤ u) :
    ∃ earlier later, p.currentFee t = .ok earlier ∧ p.currentFee u = .ok later ∧
      later.value ≤ earlier.value ∧ later.le earlier = .ok true := by
  have ⟨earlier, ht, hft, hvt⟩ := currentFee_eq hb t
  have ⟨later, hu, hfu, hvu⟩ := currentFee_eq hb u
  have hle : later.value ≤ earlier.value := by
    rw [hvt, hvu]
    have : ((p.feeAt u).rate : ℚ) ≤ (p.feeAt t).rate := by exact_mod_cast rate_feeAt_anti hr h htu
    exact div_le_div_of_nonneg_right this (by norm_num)
  exact ⟨earlier, later, ht, hu, hle, by rw [Decimal.le_eq hfu hft, decide_eq_true hle]⟩

-- A pool that was updated at 990, fifteen bins away from its reference bin.
def calming : Pool where
  binStep     := 100
  activeId    := 20
  fees        := { baseFactor := 10000, variableControl := 4000 }
  volatility  := { accumulator := 200000, reference := 50000, indexReference := 5, updatedAt := 990 }
  rewards     := ⟨{}, {}⟩
  accounts    := {}
  words       := Vector.replicate 16 0
  key         := none
  binStep_pos := by decide

-- After a minute half of the volatility is left, and in the end none of it.
theorem currentFee_anti_calming :
    (ofPool calming).Reduces ∧ (ofPool calming).UpToDate calming.activeId ∧
    (calming.feeAt 900).rate = 26000000 ∧ (calming.feeAt 1050).rate = 14000000 ∧
    (calming.feeAt 2000).rate = 10000000 ∧
    ∃ earlier later, calming.currentFee 900 = .ok earlier ∧ calming.currentFee 1050 = .ok later ∧
      later.value ≤ earlier.value ∧ later.le earlier = .ok true := by
  have hr : (ofPool calming).Reduces := ⟨by decide, by decide⟩
  have h : (ofPool calming).UpToDate calming.activeId := ⟨by decide, by decide⟩
  exact ⟨hr, h, by decide, by decide, by decide, currentFee_anti (by decide) hr h (by decide)⟩

end Pool

end BinMarket
