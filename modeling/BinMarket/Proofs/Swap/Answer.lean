import BinMarket.Proofs.Decimal.Size
import BinMarket.Proofs.Outcome
import BinMarket.Proofs.Swap.Trace

/-!
How a quote is read off a walk that has ended.
-/

namespace BinMarket

variable {p : Pool} {e : Option Extension} {arrays : List BinArray} {r : Route} {s w : Walk}
  {d : Direction} {amount slippage now : Int} {q : SwapQuote}

-- An output within reach of the ideal one has a price impact: nothing overflows on the way to it.
theorem exists_priceImpact {out ideal : Int} {k : Nat} (hk : 0 < k)
    (hm : (k : Int) + 6 ≤ Decimal.maxExponent) (h : (out - ideal).natAbs < tenTo k) :
    ∃ impact, priceImpact out ideal = .ok impact := by
  unfold priceImpact
  split
  case isTrue    => exact ⟨_, rfl⟩
  case isFalse hi =>
    have hp : 0 < readingDigits := by decide
    have hl : Decimal.minExponent < k := lt_of_lt_of_le (by decide) (Int.natCast_nonneg k)
    have hd : (0 : Int) + Decimal.digitCount (out - ideal).natAbs ≤ k := by
      have := (Decimal.digitCount_le_iff hk).mpr h
      omega
    have ⟨s, _, hs⟩ := Decimal.sub_ofInt readingDigits out ideal
    have ⟨short, hshort, hb₁⟩ := Decimal.finish_below (s := s) hp hl (by omega) hd
    have ⟨ratio, hratio, hb₂⟩ := Decimal.div_ofInt_below hp (by omega) hb₁ hi (by omega)
    have ⟨impact, himpact, _⟩ := Decimal.mul_ofInt_below (n := 100) (k := 3) hp (by omega) hb₂
      ((Decimal.digitCount_le_iff (by decide)).mpr (by decide)) (by omega)
    refine ⟨impact, ?_⟩
    rw [hs, hshort]
    refine (congrArg (· >>= (Decimal.mul readingDigits · (.ofInt 100))) hratio).trans ?_
    exact himpact

namespace Walk

-- The quote of a walk with a given price impact.
def answer (w : Walk) (amount slippage : Int) (impact : Decimal) : SwapQuote where
  amountIn     := amount
  amountOut    := w.total (·.amountOut)
  fee          := w.total (·.fee)
  protocolFee  := w.total (·.protocolFee)
  minOut       :=
    w.total (·.amountOut) * (DynamicFee.basisPoints - slippage) / DynamicFee.basisPoints
  priceImpact  := impact
  arrayIndexes := w.touched.reverse.map (·.index)
  arrayKeys    := w.touched.reverse.filterMap (·.key)
  endBin       := some w.active
  slippage     := slippage

theorem quote_of_startBin {first : Bin} {ideal : Int} {impact : Decimal}
    (hs : w.startBin? = some first) (hi : first.buys (amount - w.fee.inside amount) d = .ok ideal)
    (hp : priceImpact (w.total (·.amountOut)) ideal = .ok impact) :
    w.quote amount slippage d = .ok (w.answer amount slippage impact) := by
  rw [quote, hs]
  simp only [hi]
  exact congrArg (· >>= fun i => Except.ok (w.answer amount slippage i)) (congrArg liftM hp)

theorem exists_of_quote (h : w.quote amount slippage d = .ok q) :
    ∃ first ideal impact, w.startBin? = some first ∧
      first.buys (amount - w.fee.inside amount) d = .ok ideal ∧
      priceImpact (w.total (·.amountOut)) ideal = .ok impact ∧
      q = w.answer amount slippage impact := by
  cases hs : w.startBin?
  case none =>
    rw [quote, hs] at h
    contradiction
  case some first =>
    cases hi : first.buys (amount - w.fee.inside amount) d
    case error =>
      rw [quote, hs] at h
      simp only [hi] at h
      contradiction
    case ok ideal =>
      cases hp : priceImpact (w.total (·.amountOut)) ideal
      case error =>
        rw [quote, hs] at h
        simp only [hi] at h
        replace h := (congrArg (· >>= fun i => Except.ok (w.answer amount slippage i))
          (congrArg liftM hp)).symm.trans h
        contradiction
      case ok impact =>
        cases (quote_of_startBin hs hi hp).symm.trans h
        exact ⟨first, ideal, impact, rfl, hi, hp, rfl⟩

theorem quote_of_filled_eq_nil (h : w.filled = []) :
    w.quote amount slippage d = .error .nothingFilled := by
  rw [quote, startBin?, h]
  rfl

end Walk

namespace Pool

theorem quote_eq_bind (ha : 0 ≤ amount) (hs : 0 ≤ slippage)
    (hm : slippage ≤ DynamicFee.basisPoints) :
    p.quote e arrays amount d slippage now =
      (Walk.run (.of p e arrays d) (.start p amount now)).bind (·.quote amount slippage d) := by
  rw [Pool.quote, if_neg (not_lt.mpr ha), if_neg (by omega)]
  rfl

-- A call is refused for its input or its tolerance, or its answer is that of its walk.
theorem quote_refused_or (p : Pool) (e : Option Extension) (arrays : List BinArray) (amount : Int)
    (d : Direction) (slippage now : Int) :
    (∃ a, p.quote e arrays amount d slippage now = .error (.invalid a)) ∨
    0 ≤ amount ∧ 0 ≤ slippage ∧ slippage ≤ DynamicFee.basisPoints ∧
      p.quote e arrays amount d slippage now =
        (Walk.run (.of p e arrays d) (.start p amount now)).bind (·.quote amount slippage d) := by
  by_cases ha : amount < 0
  case pos =>
    rw [Pool.quote, if_pos ha]
    exact .inl ⟨_, rfl⟩
  case neg =>
    by_cases hs : slippage < 0 ∨ DynamicFee.basisPoints < slippage
    case pos =>
      rw [Pool.quote, if_neg ha, if_pos hs]
      exact .inl ⟨_, rfl⟩
    case neg =>
      have ⟨hs₀, hs₁⟩ := not_or.mp hs
      exact .inr ⟨not_lt.mp ha, not_lt.mp hs₀, not_lt.mp hs₁,
        quote_eq_bind (not_lt.mp ha) (not_lt.mp hs₀) (not_lt.mp hs₁)⟩

-- A call that gives a quote had an input and a tolerance that are allowed.
theorem exists_walk_of_quote (h : p.quote e arrays amount d slippage now = .ok q) :
    0 ≤ amount ∧ 0 ≤ slippage ∧ slippage ≤ DynamicFee.basisPoints ∧
    ∃ w, Walk.run (.of p e arrays d) (.start p amount now) = .ok w ∧
      w.quote amount slippage d = .ok q := by
  obtain ⟨_, hr⟩ | ⟨ha, hs₀, hs₁, hr⟩ :=
    quote_refused_or p e arrays amount d slippage now
  case inl => cases hr.symm.trans h
  case inr =>
    rw [hr] at h
    cases hw : Walk.run (.of p e arrays d) (.start p amount now)
    case error => rw [hw] at h; contradiction
    case ok w =>
      rw [hw] at h
      exact ⟨ha, hs₀, hs₁, w, rfl, h⟩

end Pool

end BinMarket
