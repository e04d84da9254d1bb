import BinMarket.Proofs.Swap.Refinement

/-!
Why a quote fails. A round finds the bitmaps at an end, an array that is not at hand or a reserve
without a price, and a walk fails as its last round does. What goes wrong once a walk has ended is
never a want of liquidity.
-/

namespace BinMarket

open FixedPoint

variable {p : Pool} {e : Option Extension} {arrays : List BinArray} {r : Route} {w : Walk} {b : Bin}
  {fee : DynamicFee} {d : Direction} {amount slippage now left : Int} {f : Fault}

theorem FixedPoint.eq_zero_of_shlDiv {x y : Int} {k : Nat} {g : Rounding}
    (h : shlDiv x y k g = .error f) : y = 0 ∧ f = .invalid .divisorZero := by
  unfold shlDiv at h
  split at h
  case isTrue hz => exact ⟨hz, (Except.error.inj h).symm⟩
  case isFalse   => cases g <;> contradiction

namespace Bin

theorem fault_of_netForAll (h : b.netForAll d = .error f) :
    b.price = 0 ∧ f = .invalid .divisorZero := by
  cases d
  case xToY => exact eq_zero_of_shlDiv (show shlDiv _ _ places .up = _ from h)
  case yToX => contradiction

theorem fault_of_buys {net : Int} (h : b.buys net d = .error f) :
    b.price = 0 ∧ f = .invalid .divisorZero := by
  cases d
  case xToY => contradiction
  case yToX => exact eq_zero_of_shlDiv (show shlDiv _ _ places .down = _ from h)

-- Only a reserve without a price keeps a bin from filling.
theorem fault_of_fill (h : b.fill fee amount d = .error f) :
    b.output d ≠ 0 ∧ b.price = 0 ∧ f = .invalid .divisorZero := by
  by_cases ho : b.output d = 0
  case pos => cases (fill_of_output_eq_zero ho).symm.trans h
  case neg =>
    refine ⟨ho, ?_⟩
    cases hn : b.netForAll d
    case error =>
      rw [fill, if_neg ho, hn] at h
      cases h
      exact fault_of_netForAll hn
    case ok net =>
      by_cases hl : net + fee.onTop net < amount
      case pos => cases (fill_of_lt ho hn hl).symm.trans h
      case neg =>
        cases hb : b.buys (amount - fee.inside amount) d
        case ok    => cases (fill_of_le ho hn (not_lt.mp hl) hb).symm.trans h
        case error =>
          rw [fill, if_neg ho, hn] at h
          replace h := (if_neg hl).symm.trans h
          rw [hb] at h
          cases h
          exact fault_of_buys hb

end Bin

namespace Walk

-- Why a round fails.
inductive Fails (r : Route) (w : Walk) : Fault → Prop
  | exhausted : r.nextArray w.active = none → Fails r w (.exhausted w.left w.active)
  | notSupplied {index : Int} :
    r.nextArray w.active = some index → r.supplied? index = none →
    Fails r w (.arrayNotSupplied index w.left w.active)
  | unpriced {array : BinArray} {bin : Bin} :
    r.nextArray w.active = some (BinArray.indexOf w.active) →
    r.supplied? (BinArray.indexOf w.active) = some array → array.bin w.active = .ok bin →
    bin.output r.direction ≠ 0 → bin.price = 0 → Fails r w (.invalid .divisorZero)

theorem fails_of_step (h : step r w = .error f) : Fails r w f := by
  cases hn : r.nextArray w.active
  case none =>
    cases (step_of_none hn).symm.trans h
    exact .exhausted hn
  case some index =>
    cases hs : r.supplied? index
    case none =>
      cases (step_of_not_supplied hn hs).symm.trans h
      exact .notSupplied hn hs
    case some array =>
      by_cases hi : BinArray.indexOf w.active = index
      case neg => cases (step_of_jump hn hs hi).symm.trans h
      case pos =>
        subst hi
        have hb := BinArray.bin_ok (BinArray.holds_iff.mpr (BinArray.index_of_find? hs).symm)
        rw [step_of_holds hn hs rfl, hb] at h
        replace h : visit r (w.approach array) _ = .error f := h
        rw [visit] at h
        cases hf : Bin.fill _ (w.approach array).fee (w.approach array).left r.direction
        case ok g => rw [hf] at h; cases h
        case error g =>
          rw [hf] at h
          cases h
          obtain ⟨ho, hp, rfl⟩ := Bin.fault_of_fill hf
          exact .unpriced hn hs hb ho hp

-- A walk fails as the last round that it comes to.
theorem exists_fails_of_run (h : run r w = .error f) :
    ∃ v, Reached r w v ∧ 0 < v.left ∧ Fails r v f := by
  fun_induction run r w
  case case1 w hl g hs =>
    cases h
    exact ⟨w, .refl, hl, fails_of_step hs⟩
  case case2 w hl w₁ hs hi =>
    obtain ⟨v, hr, hv⟩ := hi h
    exact ⟨v, .head ⟨hl, hs⟩ hr, hv⟩
  case case3 => contradiction

theorem shortfall?_of_quote (h : w.quote amount slippage d = .error f) : f.shortfall? = none := by
  cases hs : w.startBin?
  case none =>
    rw [quote, hs] at h
    cases h
    rfl
  case some first =>
    cases hi : first.buys (amount - w.fee.inside amount) d
    case error =>
      rw [quote, hs] at h
      simp only [hi] at h
      cases h
      rw [(Bin.fault_of_buys hi).right]
      rfl
    case ok ideal =>
      cases hp : priceImpact (w.total (·.amountOut)) ideal
      case ok    => cases (quote_of_startBin hs hi hp).symm.trans h
      case error =>
        rw [quote, hs] at h
        simp only [hi] at h
        replace h := (congrArg (· >>= fun i => Except.ok (w.answer amount slippage i))
          (congrArg liftM hp)).symm.trans h
        cases h
        rfl

end Walk

-- A want of liquidity is the walk's own, and the call was an allowed one.
theorem Pool.run_of_shortfall (h : p.quote e arrays amount d slippage now = .error f)
    (hs : f.shortfall? = some left) :
    0 ≤ amount ∧ 0 ≤ slippage ∧ slippage ≤ DynamicFee.basisPoints ∧
      Walk.run (.of p e arrays d) (.start p amount now) = .error f := by
  obtain ⟨_, hr⟩ | ⟨ha, hs₀, hs₁, hr⟩ :=
    quote_refused_or p e arrays amount d slippage now
  case inl =>
    cases hr.symm.trans h
    contradiction
  case inr =>
    rw [hr] at h
    cases hw : Walk.run (.of p e arrays d) (.start p amount now)
    case error =>
      rw [hw] at h
      cases h
      exact ⟨ha, hs₀, hs₁, rfl⟩
    case ok =>
      rw [hw] at h
      rw [Walk.shortfall?_of_quote h] at hs
      contradiction

end BinMarket
