import BinMarket.Proofs.Swap.Charged

/-!
Fees without a variable part. Every bin then charges at one rate, and rounds its fee up by itself. A
swap over several bins costs no less than one fee inside its whole input would, and less than one
unit more for each of its bins.
-/

namespace BinMarket

variable {p : Pool} {e : Option Extension} {arrays : List BinArray} {r : Route} {s w : Walk}
  {fee : DynamicFee} {d : Direction} {amount slippage now : Int} {q : SwapQuote}

theorem DynamicFee.sum_inside_lt {xs : List Int} (f : DynamicFee) (h : xs ≠ []) :
    (xs.map f.inside).sum < f.inside xs.sum + xs.length := by
  induction xs
  case nil          => contradiction
  case cons x xs hi =>
    cases xs
    case nil       => simp
    case cons y ys =>
      have hrest := hi (by simp)
      have hadd := f.add_inside_le x (y :: ys).sum
      rw [List.map_cons, List.sum_cons, List.sum_cons, List.length_cons, Nat.cast_add, Nat.cast_one]
      omega

namespace Walk

-- A fee state with the rate that every bin has charges each bin what it was charged.
theorem Traced.total_fee_eq (h : Traced r s w) (hc : s.fee.Charges)
    (hr : ∀ bin, (s.fee.track bin).rate = fee.rate) :
    w.total (·.fee) = ((w.filled.map (·.fill.amountIn)).map fee.inside).sum := by
  rw [total, sumOf_eq_sum, List.map_map]
  refine congrArg List.sum (List.map_congr_left fun g hg => ?_)
  rw [(h.genuine g hg).fee_eq hc]
  exact DynamicFee.inside_eq_of_rate_eq (hr g.id) _

end Walk

namespace Pool

-- The rate of a pool that has no variable fee is the same throughout a walk.
theorem rate_start_of_variableControl_le (h : p.fees.variableControl ≤ 0) (amount now bin : Int) :
    ((Walk.start p amount now).fee.track bin).rate = (DynamicFee.ofPool p).rate :=
  DynamicFee.rate_eq_of_variableControl_le (by simp [Walk.start]) (by simp [DynamicFee.ofPool])
    (by simpa using h)

-- At a flat rate a quote charges the fee inside its whole input, and at most one unit more for each
-- bin that it fills after the first.
theorem quote_fee_at_flatRate (hu : p.Unsigned arrays) (hv : p.fees.variableControl ≤ 0)
    (hq : p.quote e arrays amount d slippage now = .ok q) :
    ∃ w, Walk.run (.of p e arrays d) (.start p amount now) = .ok w ∧
      (DynamicFee.ofPool p).inside amount ≤ q.fee ∧
      q.fee ≤ (DynamicFee.ofPool p).inside amount + w.filled.length - 1 := by
  have ⟨w, first, impact, hrun, ht, hf, hnet, he⟩ := exists_traced_of_quote hu hq
  have hfee : q.fee = w.total (·.fee) := by
    rw [he]
    rfl
  have hin : (w.filled.map (·.fill.amountIn)).sum = amount := by
    rw [Walk.netIn, ←hfee] at hnet
    exact sub_left_inj.mp hnet
  have hsum := ht.total_fee_eq (hu.charges amount now) (rate_start_of_variableControl_le hv amount now)
  have hsome : w.filled.map (·.fill.amountIn) ≠ [] := by
    intro hnil
    rw [List.map_eq_nil_iff.mp hnil] at hf
    contradiction
  have hlow := (DynamicFee.ofPool p).inside_sum_le (w.filled.map (·.fill.amountIn))
  have hhigh := (DynamicFee.ofPool p).sum_inside_lt hsome
  rw [hin, ←hsum, ←hfee] at hlow hhigh
  rw [List.length_map] at hhigh
  exact ⟨w, hrun, hlow, Int.le_sub_one_of_lt hhigh⟩

-- A pool that charges the same at every distance.
def flat : Pool := { sparse with fees := { sparse.fees with variableControl := 0 } }

-- Over two bins the swap pays the unit that the second bin can cost.
theorem quote_fee_at_flatRate_terrace :
    flat.Unsigned terrace ∧ flat.fees.variableControl ≤ 0 ∧
    ∃ q w, flat.quote none terrace 150 .xToY 50 1000 = .ok q ∧
      Walk.run (.of flat none terrace .xToY) (.start flat 150 1000) = .ok w ∧
      w.filled.length = 2 ∧ (DynamicFee.ofPool flat).inside 150 = 1 ∧ q.fee = 2 ∧
      1 ≤ q.fee ∧ q.fee ≤ 1 + w.filled.length - 1 := by
  have hu : flat.Unsigned terrace := by decide +kernel
  have hv : flat.fees.variableControl ≤ 0 := by decide
  have hok : (flat.quote none terrace 150 .xToY 50 1000).map (·.fee) = .ok 2 := by decide +kernel
  have hbins : (Walk.run (.of flat none terrace .xToY) (.start flat 150 1000)).map
      (·.filled.length) = .ok 2 := by decide +kernel
  have hone : (DynamicFee.ofPool flat).inside 150 = 1 := by decide
  have ⟨q, hq, hfee⟩ := exists_of_map_eq_ok hok
  have ⟨w, hrun, hlow, hhigh⟩ := quote_fee_at_flatRate hu hv hq
  rw [hrun] at hbins
  rw [hone] at hlow hhigh
  exact ⟨hu, hv, q, w, hq, hrun, Except.ok.inj hbins, hone, hfee, hlow, hhigh⟩

end Pool

end BinMarket
