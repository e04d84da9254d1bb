import BinMarket.Proofs.Deposit.Curve
import BinMarket.Proofs.Deposit.Plan
import BinMarket.Proofs.Price
import BinMarket.Report.Basic

/-!
Deposits by strategy. The shape that any strategy makes over a range of bins can be planned exactly if
there is something to add, and each token that is added has a bin on its side of the active one.
-/

namespace BinMarket

variable {s : Shape} {plan : List Allocation} {t : Token} {strategy : Strategy}
  {active lowest highest totalX totalY step bin : Int}

theorem Strategy.exists_weights (strategy : Strategy) (hle : lowest ≤ highest)
    (hw : highest < lowest + 70) (active : Int) :
    ∃ f : Int → Int,
      strategy.shape active (binsFrom lowest highest) =
        Shape.ofWeights active (.on (binsFrom lowest highest) f) ∧
      (∀ k, 0 ≤ f k) ∧ 0 < f (Curve.centre active lowest highest) := by
  have hbins (f : Int → Int) := congrArg (Shape.ofWeights active)
    (Weights.ofPairs_on (f := f) (pairwise_binsFrom lowest highest))
  cases strategy
  case spot   => exact ⟨_, hbins fun _ => 1, fun _ => one_pos.le, one_pos⟩
  case bidAsk =>
    have hpos (b : Int) : (0 : Int) < (b - active).natAbs + 1 := by omega
    exact ⟨_, hbins fun b => (b - active).natAbs + 1, fun b => (hpos b).le, hpos _⟩
  case curve  =>
    have ⟨f, hf, h₀, hc⟩ := Curve.exists_weights hle hw active
    refine ⟨f, ?_, h₀, hc⟩
    rw [shape, Shape.curve, hf]
    rfl

theorem Strategy.exists_shape (strategy : Strategy) (hle : lowest ≤ highest)
    (hw : highest < lowest + 70) (active : Int) :
    ∃ s, strategy.shape active (binsFrom lowest highest) = .ok s ∧
      s.Straddles active lowest highest := by
  have ⟨f, hf, h₀, hc⟩ := strategy.exists_weights hle hw active
  rw [hf]
  exact Shape.exists_ofWeights hle active h₀ hc

namespace Shape

namespace Straddles

variable (h : s.Straddles active lowest highest) (hle : lowest ≤ highest)
include h hle

theorem allowed (hw : highest < lowest + 70) (htx : 0 ≤ totalX) (hty : 0 ≤ totalY) :
    s.Allowed totalX totalY where
  gapless := by rw [h.bins, gap?_binsFrom]
  narrow  := ⟨lowest, highest, by rw [h.bins, head?_binsFrom hle],
    by rw [h.bins, getLast?_binsFrom hle], hw⟩
  totals  := fun t => by cases t <;> assumption
  nonneg  := h.nonneg

omit hle in
theorem takers_eq_nil_iff :
    s.takers t = [] ↔ ∀ bin ∈ binsFrom lowest highest, ¬t.Accepts active bin := by
  constructor
  case mp  => exact fun hn bin hb ha => h.takers t ⟨bin, hb, ha⟩ hn
  case mpr =>
    intro hn
    by_contra hc
    have ⟨bin, hbin⟩ := List.exists_mem_of_ne_nil _ hc
    obtain ⟨b, hb, hp, rfl⟩ := mem_takers.mp hbin
    have hmem : b.bin ∈ binsFrom lowest highest := h.bins ▸ List.mem_map_of_mem hb
    exact hp.ne' (h.offside b hb t (hn _ hmem))

theorem takers_x_eq_nil_iff : s.takers .x = [] ↔ highest < active := by
  simp only [h.takers_eq_nil_iff, Token.Accepts, mem_binsFrom]
  constructor
  case mp  => exact fun hn => not_le.mp (hn highest ⟨hle, le_rfl⟩)
  case mpr => omega

theorem takers_y_eq_nil_iff : s.takers .y = [] ↔ active < lowest := by
  simp only [h.takers_eq_nil_iff, Token.Accepts, mem_binsFrom]
  constructor
  case mp  => exact fun hn => not_le.mp (hn lowest ⟨le_rfl, hle⟩)
  case mpr => omega

end Straddles

-- A plan keeps to the sides of its shape.
theorem Planned.of_eq_zero (hp : s.Planned totalX totalY plan)
    (hs : s.Straddles active lowest highest) {a : Allocation} (ha : a ∈ plan)
    (hb : ¬t.Accepts active a.bin) : a.of t = 0 := by
  have ⟨b, hmem, hbin, he⟩ := hp.exists_share ha t
  rw [←he]
  exact hp.allowed.sound.allotted_of_share_eq_zero hmem (hs.offside b hmem t (hbin ▸ hb))

end Shape

-- What a deposit over a range of bins needs in order to be planned.
structure Fits (totalX totalY active lowest highest : Int) : Prop where
  some : 0 < totalX + totalY
  x    : totalX = 0 ∨ active ≤ highest
  y    : totalY = 0 ∨ lowest ≤ active

-- What a plan makes of the two totals around the active bin.
structure Places (plan : List Allocation) (totalX totalY active : Int) : Prop where
  sumX  : sumOf (plan.map (·.amountX)) = totalX
  sumY  : sumOf (plan.map (·.amountY)) = totalY
  below : ∀ a ∈ plan, a.bin < active → a.amountX = 0
  above : ∀ a ∈ plan, active < a.bin → a.amountY = 0

theorem Shape.Planned.places (hp : s.Planned totalX totalY plan)
    (hs : s.Straddles active lowest highest) : Places plan totalX totalY active where
  sumX  := hp.sum_eq .x
  sumY  := hp.sum_eq .y
  below := fun _ ha hb => hp.of_eq_zero hs (t := .x) ha (not_le.mpr hb)
  above := fun _ ha hb => hp.of_eq_zero hs (t := .y) ha (not_le.mpr hb)

-- Any strategy makes a shape over a range that is not too wide. A deposit that fits the range is
-- planned on the right sides of the active bin, and one that does not has no liquidity to add.
theorem Strategy.plans_iff_fits (strategy : Strategy) (active : Int) (hle : lowest ≤ highest)
    (hw : highest < lowest + 70) (htx : 0 ≤ totalX) (hty : 0 ≤ totalY)
    (hp : ∀ bin ∈ binsFrom lowest highest, Priced step bin) :
    ∃ s, strategy.shape active (binsFrom lowest highest) = .ok s ∧
      (Fits totalX totalY active lowest highest → ∃ plan, s.plan totalX totalY step = .ok plan ∧
        Places plan totalX totalY active) ∧
      (¬Fits totalX totalY active lowest highest → ∃ fault report,
        s.plan totalX totalY step = .error fault ∧ fault.report? = some report ∧
        report.category = .noLiquidityToAdd) := by
  have ⟨s, hs, hst⟩ := strategy.exists_shape hle hw active
  have ha := hst.allowed hle hw htx hty
  have ⟨prices, hprices⟩ : ∃ prices, s.bins.mapM (Shape.flooredPrice · step) = .ok prices :=
    exists_mapM fun bin hb => priced_iff.mp (hp bin (hst.bins ▸ hb))
  have hplan := Shape.plan_eq_of_priced ha hprices
  simp only [hst.takers_x_eq_nil_iff hle, hst.takers_y_eq_nil_iff hle] at hplan
  refine ⟨s, hs, fun hf => ?fits, fun hf => ?fails⟩
  case fits =>
    obtain ⟨hsome, hx, hy⟩ := hf
    -- None of the three ways to fail is open to a deposit that fits.
    rw [if_neg (by omega), if_neg (by omega), if_neg (by omega)] at hplan
    exact ⟨_, hplan, (Shape.planned_of_plan hplan).places hst⟩
  case fails =>
    rw [hplan]
    split_ifs with hx hy hz
    case pos => exact ⟨_, _, rfl, rfl, rfl⟩
    case pos => exact ⟨_, _, rfl, rfl, rfl⟩
    case pos => exact ⟨_, _, rfl, rfl, rfl⟩
    case neg => exact absurd ⟨by omega, by omega, by omega⟩ hf

-- Around bin 1 a curve over six bins takes both tokens, and from bin 5 it cannot take token X.
theorem Strategy.curve_plans :
    (∃ s, curve.shape 1 (binsFrom (-2) 3) = .ok s ∧
      ∃ plan, s.plan 1000 500 10 = .ok plan ∧ Places plan 1000 500 1) ∧
    ∃ s, curve.shape 5 (binsFrom (-2) 3) = .ok s ∧ ∃ fault report,
      s.plan 1000 500 10 = .error fault ∧ fault.report? = some report ∧
      report.category = .noLiquidityToAdd := by
  have hle : (-2 : Int) ≤ 3 := by decide
  have hx : (0 : Int) ≤ 1000 := by decide
  have hy : (0 : Int) ≤ 500 := by decide
  have hp : ∀ bin ∈ binsFrom (-2) 3, Priced 10 bin := by decide +kernel
  have ⟨s, hs, h, _⟩ := curve.plans_iff_fits 1 hle (by decide) hx hy hp
  have ⟨s', hs', _, h'⟩ := curve.plans_iff_fits 5 hle (by decide) hx hy hp
  exact ⟨⟨s, hs, h ⟨by decide, .inr (by decide), .inr (by decide)⟩⟩,
    s', hs', h' fun hf => absurd hf.x (by decide)⟩

end BinMarket
