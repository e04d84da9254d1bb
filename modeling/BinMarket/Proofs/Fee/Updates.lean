import BinMarket.Proofs.Fee
import Mathlib.Data.Rat.Floor

/-!
The fee state over time. However often it is brought up to date, and in whatever order, both
volatilities stay within their maximum and nothing changes but them and the reference bin. So the
rate stays between the base rate and a tenth.
-/

namespace BinMarket

-- What brings a fee state up to date: the time at which a bin is active, or a bin's distance.
inductive FeeUpdate
  | refresh (active now : Int)
  | track (active : Int)
deriving DecidableEq, Repr

namespace DynamicFee

variable {f g : DynamicFee} {u : FeeUpdate} {us vs : List FeeUpdate}
  {active now later a : Int}

def update (f : DynamicFee) : FeeUpdate → DynamicFee
  | .refresh active now => f.refresh active now
  | .track active       => f.track active

def afterAll (f : DynamicFee) (us : List FeeUpdate) : DynamicFee := us.foldl update f

-- How much of the volatility stays on when the references move.
def kept (f : DynamicFee) (now : Int) : Int :=
  if now - f.state.updatedAt < f.parameters.decayPeriod then
    f.state.accumulator * f.parameters.reductionFactor / basisPoints
  else 0

theorem refresh_of_lt (h : now - f.state.updatedAt < f.parameters.filterPeriod) :
    f.refresh active now = f :=
  if_pos h

theorem refresh_of_le (h : f.parameters.filterPeriod ≤ now - f.state.updatedAt) :
    f.refresh active now =
      { f with state := { f.state with indexReference := active, reference := f.kept now } } :=
  if_neg (not_lt.mpr h)

-- A volatility that is reduced by a factor of one at most, or forgotten.
structure Reduces (f : DynamicFee) : Prop where
  factor_nonneg : 0 ≤ f.parameters.reductionFactor
  factor_le     : f.parameters.reductionFactor ≤ basisPoints

namespace Reduces

variable (h : f.Reduces) (ha : 0 ≤ f.state.accumulator)
include h ha

theorem kept_nonneg (now : Int) : 0 ≤ f.kept now := by
  rw [kept]
  split
  case isTrue  => exact Int.ediv_nonneg (mul_nonneg ha h.factor_nonneg) (by decide)
  case isFalse => exact le_rfl

theorem kept_le (now : Int) : f.kept now ≤ f.state.accumulator := by
  rw [kept]
  split
  case isTrue  =>
    rw [Int.ediv_le_iff_le_mul basisPoints_pos]
    have := mul_le_mul_of_nonneg_left h.factor_le ha
    have := basisPoints_pos
    omega
  case isFalse => exact ha

-- The longer it takes, the less stays on.
theorem kept_anti (hle : now ≤ later) : f.kept later ≤ f.kept now := by
  by_cases hd : later - f.state.updatedAt < f.parameters.decayPeriod
  case pos =>
    have hd' : now - f.state.updatedAt < f.parameters.decayPeriod := by omega
    rw [kept, kept, if_pos hd, if_pos hd']
  case neg =>
    rw [kept, if_neg hd]
    exact h.kept_nonneg ha now

end Reduces

-- Both volatilities between nothing and their maximum.
structure Contained (f : DynamicFee) : Prop where
  accumulator_nonneg : 0 ≤ f.state.accumulator
  accumulator_le     : f.state.accumulator ≤ f.parameters.maxAccumulator
  reference_nonneg   : 0 ≤ f.state.reference
  reference_le       : f.state.reference ≤ f.parameters.maxAccumulator

namespace Contained

variable (h : f.Contained)
include h

theorem refresh (hr : f.Reduces) (active now : Int) : (f.refresh active now).Contained := by
  by_cases hf : now - f.state.updatedAt < f.parameters.filterPeriod
  case pos => rwa [refresh_of_lt hf]
  case neg =>
    have hle := hr.kept_le h.accumulator_nonneg now
    rw [refresh_of_le (not_lt.mp hf)]
    exact { accumulator_nonneg := h.accumulator_nonneg
            accumulator_le     := h.accumulator_le
            reference_nonneg   := hr.kept_nonneg h.accumulator_nonneg now
            reference_le       := hle.trans h.accumulator_le }

theorem track (active : Int) : (f.track active).Contained where
  accumulator_nonneg :=
    le_min (add_nonneg h.reference_nonneg (mul_nonneg (Int.natCast_nonneg _) (by decide)))
      (h.accumulator_nonneg.trans h.accumulator_le)
  accumulator_le     := min_le_right ..
  reference_nonneg   := h.reference_nonneg
  reference_le       := h.reference_le

theorem update (hr : f.Reduces) (u : FeeUpdate) : (f.update u).Contained := by
  cases u
  case refresh active now => exact h.refresh hr active now
  case track active       => exact h.track active

end Contained

-- What updates leave as it is. The reference bin moves only to a bin of which the time was told.
structure Continues (f : DynamicFee) (us : List FeeUpdate) (g : DynamicFee) : Prop where
  binStep        : g.binStep = f.binStep
  parameters     : g.parameters = f.parameters
  updatedAt      : g.state.updatedAt = f.state.updatedAt
  indexReference : g.state.indexReference = f.state.indexReference ∨
                     ∃ now, .refresh g.state.indexReference now ∈ us

namespace Continues

theorem refl (f : DynamicFee) (us : List FeeUpdate) : f.Continues us f :=
  ⟨rfl, rfl, rfl, .inl rfl⟩

theorem update (f : DynamicFee) (hu : u ∈ us) : f.Continues us (f.update u) := by
  cases u
  case track               => exact ⟨rfl, rfl, rfl, .inl rfl⟩
  case refresh active now =>
    by_cases hf : now - f.state.updatedAt < f.parameters.filterPeriod
    case pos =>
      rw [DynamicFee.update, refresh_of_lt hf]
      exact refl f us
    case neg =>
      rw [DynamicFee.update, refresh_of_le (not_lt.mp hf)]
      exact ⟨rfl, rfl, rfl, .inr ⟨now, hu⟩⟩

theorem trans {k : DynamicFee} (h₁ : f.Continues us g) (h₂ : g.Continues us k) :
    f.Continues us k where
  binStep        := h₂.binStep.trans h₁.binStep
  parameters     := h₂.parameters.trans h₁.parameters
  updatedAt      := h₂.updatedAt.trans h₁.updatedAt
  indexReference := by
    cases h₂.indexReference
    case inl he => exact he ▸ h₁.indexReference
    case inr hu => exact .inr hu

end Continues

theorem Reduces.congr (h : f.Reduces) (he : g.parameters = f.parameters) : g.Reduces :=
  ⟨he ▸ h.factor_nonneg, he ▸ h.factor_le⟩

theorem continues_afterAll (f : DynamicFee) (hs : ∀ u ∈ us, u ∈ vs) :
    f.Continues vs (f.afterAll us) := by
  induction us generalizing f
  case nil          => exact .refl f vs
  case cons u us hi =>
    exact (Continues.update f (hs u List.mem_cons_self)).trans
      (hi (f.update u) fun u hu => hs u (List.mem_cons_of_mem _ hu))

theorem Contained.afterAll (h : f.Contained) (hr : f.Reduces) (us : List FeeUpdate) :
    (f.afterAll us).Contained := by
  induction us generalizing f
  case nil          => exact h
  case cons u us hi =>
    have hc := Continues.update f (List.mem_singleton_self u)
    exact hi (h.update hr u) (hr.congr hc.parameters)

-- The rate is the base rate at least, unless that is above the highest rate.
theorem min_baseRate_le_rate (f : DynamicFee) : min f.baseRate maxRate ≤ f.rate :=
  min_le_min_right _ (le_add_of_nonneg_right f.variableRate_nonneg)

-- At the highest rate a ninth of what is left comes on top.
theorem onTop_le_ninth (ha : 0 ≤ a) : f.onTop a ≤ ⌈(a / 9 : ℚ)⌉ := by
  have hr := f.rate_le
  have hceil : (a : ℚ) / 9 ≤ ⌈(a / 9 : ℚ)⌉ := Int.le_ceil _
  rw [div_le_iff₀ (by norm_num)] at hceil
  have hnine : a ≤ ⌈(a / 9 : ℚ)⌉ * 9 := by exact_mod_cast hceil
  have hrest : ratePrecision - maxRate ≤ ratePrecision - f.rate := by omega
  rw [onTop_le_iff]
  calc a * f.rate
    _ ≤ a * maxRate                                          := mul_le_mul_of_nonneg_left hr ha
    _ ≤ ⌈(a / 9 : ℚ)⌉ * 9 * maxRate                          :=
      mul_le_mul_of_nonneg_right hnine (by decide)
    _ = ⌈(a / 9 : ℚ)⌉ * (ratePrecision - maxRate)            := by
      rw [mul_assoc]
      rfl
    _ ≤ ⌈(a / 9 : ℚ)⌉ * (ratePrecision - f.rate)             :=
      mul_le_mul_of_nonneg_left hrest (Int.ceil_nonneg (by positivity))

-- After any updates of a fee state whose volatilities are within their maximum:
-- 1. They still are, and nothing else has changed but the reference bin, which is the first one or
--    one that was active
-- 2. The rate lies between the base rate and a tenth, or is a tenth if the base rate is more
-- 3. No fee is negative, no fee inside an amount exceeds the amount, and no fee on top of it a ninth
--    of the amount, rounded up
-- 4. The protocol's cut, when its share is not more than the whole, is not more than the fee
theorem afterAll_bounded (hc : f.Charges) (hr : f.Reduces) (hs : 0 ≤ f.parameters.protocolShare)
    (h : f.Contained) (us : List FeeUpdate) :
    let g := f.afterAll us
    g.Contained ∧ f.Continues us g ∧ min f.baseRate maxRate ≤ g.rate ∧ g.rate ≤ maxRate ∧
    ∀ a, 0 ≤ a → 0 ≤ g.inside a ∧ g.inside a ≤ a ∧ 0 ≤ g.onTop a ∧ g.onTop a ≤ ⌈(a / 9 : ℚ)⌉ ∧
      0 ≤ g.protocolCut a ∧ (f.parameters.protocolShare ≤ basisPoints → g.protocolCut a ≤ a) := by
  intro g
  have hcont : f.Continues us g := continues_afterAll f fun _ hu => hu
  have hg : g.Charges := ⟨hcont.binStep ▸ hc.step, hcont.parameters ▸ hc.base⟩
  have hbase : g.baseRate = f.baseRate := by
    rw [baseRate, baseRate, hcont.parameters, hcont.binStep]
  have hshare : g.parameters.protocolShare = f.parameters.protocolShare := by rw [hcont.parameters]
  refine ⟨h.afterAll hr us, hcont, hbase ▸ g.min_baseRate_le_rate, g.rate_le, fun a ha => ?_⟩
  exact ⟨hg.inside_nonneg ha, inside_le ha, hg.onTop_nonneg ha, onTop_le_ninth ha,
    protocolCut_nonneg (hshare ▸ hs) ha, fun hle => protocolCut_le (hshare ▸ hle) ha⟩

-- A fee that has moved by 25 bins, of which 5 stay on.
def agitated : DynamicFee where
  binStep    := 100
  parameters := { baseFactor := 10000, variableControl := 40000, protocolShare := 500 }
  state      := { accumulator := 300000, reference := 50000, indexReference := 5, updatedAt := 990 }

-- It moves on, keeps half of what it has come to after a minute, moves so far that only the highest
-- rate is left, and is at rest in the end.
theorem afterAll_bounded_agitated :
    let us : List FeeUpdate := [.track 20, .refresh 20 1050, .track 1000, .refresh 7 2000, .track 7]
    agitated.Charges ∧ agitated.Reduces ∧ agitated.Contained ∧
    (agitated.afterAll (us.take 2)).state.reference = 100000 ∧
    (agitated.afterAll (us.take 3)).state.accumulator = 350000 ∧
    (agitated.afterAll (us.take 3)).rate = maxRate ∧
    (agitated.afterAll us).state = { indexReference := 7, updatedAt := 990 } ∧
    min agitated.baseRate maxRate ≤ (agitated.afterAll us).rate := by
  intro us
  have hc : agitated.Charges := ⟨by decide, by decide⟩
  have hr : agitated.Reduces := ⟨by decide, by decide⟩
  have h : agitated.Contained := ⟨by decide, by decide, by decide, by decide⟩
  have ⟨_, _, hrate, _⟩ := afterAll_bounded hc hr (by decide) h us
  exact ⟨hc, hr, h, by decide, by decide, by decide, by decide, hrate⟩

end DynamicFee

end BinMarket
