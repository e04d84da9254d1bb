import BinMarket.Proofs.Decimal.Sign
import BinMarket.Proofs.Swap.RoundTrip

/-!
The price impact of a quote. The ideal output is bought with the whole input less the fee of the
last bin's rate. As long as that fee is no more than what was charged, the output is no more than the
ideal one. Where volatility makes the last rate the highest, it can be more.
-/

namespace BinMarket

open Direction

variable {p : Pool} {e : Option Extension} {arrays : List BinArray} {r : Route} {s w : Walk}
  {b : Bin} {fee last : DynamicFee} {d : Direction} {f : Fill}
  {amount out ideal slippage now : Int} {impact : Decimal} {q : SwapQuote}

theorem DynamicFee.inside_sum_le (f : DynamicFee) (xs : List Int) :
    f.inside xs.sum ≤ (xs.map f.inside).sum := by
  induction xs
  case nil          => exact inside_le_iff.mpr (by simp)
  case cons x xs hi =>
    rw [List.map_cons, List.sum_cons, List.sum_cons]
    exact (f.inside_add_le ..).trans (add_le_add_right hi _)

-- An output that is no better than the ideal one never shows a price impact above zero.
theorem priceImpact_nonPos (hi : 0 ≤ ideal) (hle : out ≤ ideal)
    (h : priceImpact out ideal = .ok impact) : impact.NonPos := by
  by_cases hz : ideal = 0
  case pos =>
    rw [priceImpact, if_pos hz] at h
    cases h
    exact .intro (le_refl 0)
  case neg =>
    rw [priceImpact, if_neg hz] at h
    cases hs : Decimal.sub readingDigits (.ofInt out) (.ofInt ideal)
    case error => rw [hs] at h; cases h
    case ok short =>
      rw [hs] at h
      replace h : (Decimal.div readingDigits short (.ofInt ideal)).bind
          (Decimal.mul readingDigits · (.ofInt 100)) = .ok impact := h
      cases hr : Decimal.div readingDigits short (.ofInt ideal)
      case error => rw [hr] at h; cases h
      case ok ratio =>
        rw [hr] at h
        have hshort := Decimal.sub_ofInt_nonPos hle hs
        have hratio := Decimal.div_ofInt_nonPos hshort (by omega) hr
        exact Decimal.mul_ofInt_nonPos hratio (by decide) h

-- What a bin charges is no less than the fee inside at any lower rate.
theorem Bin.inside_le_fee_of_fill (hc : fee.Charges) (hr : last.rate ≤ fee.rate)
    (ha : 0 ≤ f.amountIn) (h : b.fill fee amount d = .ok f) : last.inside f.amountIn ≤ f.fee := by
  have hlow := DynamicFee.inside_le_of_rate_le hr ha
  cases filling_of_fill h
  case nothing => exact DynamicFee.inside_le_iff.mpr (by simp)
  case drained => exact hlow.trans (hc.inside_le_onTop le_rfl)
  case partly  => exact hlow

namespace Walk

-- A fee state whose rate no filled bin went below would not have charged more on the whole.
theorem Traced.inside_total_le (h : Traced r s w) (hu : ∀ a ∈ r.arrays, ∀ b ∈ a.bins, b.Unsigned)
    (hc : s.fee.Charges) (hr : ∀ g ∈ w.filled, last.rate ≤ (s.fee.track g.id).rate) :
    last.inside (w.total (·.amountIn)) ≤ w.total (·.fee) := by
  calc last.inside (w.total (·.amountIn))
    _ ≤ w.total (last.inside ·.amountIn) := by
      simpa [total, sumOf_eq_sum, Function.comp_def] using
        last.inside_sum_le (w.filled.map (·.fill.amountIn))
    _ ≤ w.total (·.fee)                  := by
      refine total_le_total fun g hg => ?_
      have hgen := h.genuine g hg
      obtain ⟨_, hin⟩ := within_of_genuine hu hc hgen
      obtain ⟨_, _, hfill⟩ := hgen.input
      exact Bin.inside_le_fee_of_fill (hc.track g.id) (hr g hg) hin.amountIn_nonneg hfill

-- So if it would have charged more, some bin was filled at a lower rate.
theorem Traced.exists_rate_lt (h : Traced r s w) (hu : ∀ a ∈ r.arrays, ∀ b ∈ a.bins, b.Unsigned)
    (hc : s.fee.Charges) (hl : w.total (·.fee) < w.fee.inside (w.total (·.amountIn))) :
    ∃ g ∈ w.filled, (w.fee.track g.id).rate < w.fee.rate := by
  by_contra hno
  refine absurd (h.inside_total_le hu hc fun g hg => ?_) (not_le.mpr hl)
  rw [←h.fee]
  by_contra hr
  exact hno ⟨g, hg, not_le.mp hr⟩

theorem Traced.parameters (h : Traced r s w) : w.fee.parameters = s.fee.parameters := by
  simpa using congrArg DynamicFee.parameters (h.fee 0)

end Walk

namespace Pool

-- How a price impact comes to be above zero. The ideal output is that of the fee state which the
-- last bin leaves.
-- 1. If this charges no more on the whole input than was charged, the impact is not above zero
-- 2. If it charges more, there is a variable fee, and some bin was filled at a lower rate than its
theorem quote_impact_nonPos (hu : p.Unsigned arrays)
    (hg : BinArray.Graded arrays (·.output d ≠ 0))
    (hq : p.quote e arrays amount d slippage now = .ok q) :
    ∃ w first ideal, Walk.run (.of p e arrays d) (.start p amount now) = .ok w ∧
      w.startBin? = some first ∧ first.buys (amount - w.fee.inside amount) d = .ok ideal ∧
      priceImpact q.amountOut ideal = .ok q.priceImpact ∧
      (w.fee.inside amount ≤ q.fee → q.amountOut ≤ ideal ∧ q.priceImpact.le .zero = .ok true) ∧
      (q.fee < w.fee.inside amount → 0 < p.fees.variableControl ∧
        ∃ g ∈ w.filled, (w.fee.track g.id).rate < w.fee.rate) := by
  have hc := hu.charges amount now
  have ⟨w, first, _, hrun, ht, hf, hnet, _⟩ := exists_traced_of_quote hu hq
  have ⟨ha, _, _, w', hrun', hqw⟩ := exists_walk_of_quote hq
  cases hrun.symm.trans hrun'
  have ⟨start, ideal, impact, hs, hb, hi, he⟩ := Walk.exists_of_quote hqw
  have hstart := hs
  rw [Walk.startBin?, hf] at hs
  cases hs
  have hfirst := ht.genuine first (List.mem_of_getLast? hf)
  have hprice := hg.priced hfirst.array hfirst.output_ne_zero
  subst he
  refine ⟨w, first.bin, ideal, hrun, hstart, hb, hi, ?charged, ?risen⟩
  case charged =>
    intro hle
    have hpos : 0 ≤ ideal :=
      (hfirst.of_forall hu.bins).buys_nonneg (sub_nonneg.mpr (w.fee.inside_le ha)) hb
    have hout : w.total (·.amountOut) ≤ ideal := by
      rw [Bin.le_buys_iff hprice hb]
      exact (ht.pays_first hu.bins hc hg id hf).mono hprice.le (by omega) le_rfl
    exact ⟨hout, (priceImpact_nonPos hpos hout hi).le_zero⟩
  case risen =>
    intro hlt
    have hin : w.total (·.amountIn) = amount := sub_left_inj.mp hnet
    have hlow := ht.exists_rate_lt hu.bins hc (hin.symm ▸ hlt)
    refine ⟨?_, hlow⟩
    by_contra hz
    obtain ⟨g, _, hl⟩ := hlow
    have hp : w.fee.parameters.variableControl ≤ 0 := by
      rw [ht.parameters, Walk.parameters_start]
      exact not_lt.mp hz
    exact absurd (DynamicFee.rate_track_of_variableControl_le hp g.id) hl.ne

-- Each of the two bins rounds its fee up, and the last rate does so only once.
theorem quote_impact_nonPos_terrace :
    sparse.Unsigned terrace ∧ BinArray.Graded terrace (·.output .xToY ≠ 0) ∧
    ∃ q, sparse.quote none terrace 150 .xToY 50 1000 = .ok q ∧ q.fee = 2 ∧
      q.priceImpact.le .zero = .ok true := by
  have hg := graded_terrace.mono (Bin.isEmpty_eq_false (d := .xToY))
  have hok : (sparse.quote none terrace 150 .xToY 50 1000).map (·.fee) = .ok 2 := by
    decide +kernel
  have hlast : (Walk.run (.of sparse none terrace .xToY) (.start sparse 150 1000)).map
      (·.fee.inside 150) = .ok 1 := by decide +kernel
  have ⟨q, hq, hfee⟩ := exists_of_map_eq_ok hok
  have ⟨w, _, _, hrun, _, _, _, hcharged, _⟩ := quote_impact_nonPos unsigned_terrace hg hq
  rw [hrun] at hlast
  replace hlast : w.fee.inside 150 = 1 := Except.ok.inj hlast
  have hle : w.fee.inside 150 ≤ q.fee := by omega
  exact ⟨unsigned_terrace, hg, q, hq, hfee, (hcharged hle).right⟩

-- A pool whose rate rises steeply with every bin that a swap passes.
def restless : Pool := { sparse with fees := { sparse.fees with variableControl := 400000000 } }

-- Two bins at one price, of which the first is soon sold out.
def level : List BinArray := [
  { index := 1
    bins  := ((Vector.replicate 70 {}).setIfInBounds 4
        { amountY := 1000000, price := 18446744073709551616 }).setIfInBounds 5
        { amountY := 1000, price := 18446744073709551616 }
    scale := .large }]

-- At the one price there is, the input less the fee of 105 buys 3395. The fee of the last rate on
-- the whole input is 144, so the ideal output is 3356 only.
theorem impact_restless :
    restless.Unsigned level ∧ BinArray.Graded level (·.output .xToY ≠ 0) ∧
    ∃ q, restless.quote none level 3500 .xToY 50 1000 = .ok q ∧
      q.amountOut = 3395 ∧ q.fee = 105 ∧ q.priceImpact.le .zero = .ok false := by
  have hg : BinArray.Graded level (·.output .xToY ≠ 0) :=
    BinArray.graded_of_forall (by decide +kernel)
  have hok : (restless.quote none level 3500 .xToY 50 1000).map
      (fun q => (q.amountOut, q.fee, q.priceImpact.le .zero)) = .ok (3395, 105, .ok false) := by
    decide +kernel
  have ⟨q, hq, hout⟩ := exists_of_map_eq_ok hok
  simp only [Prod.mk.injEq] at hout
  exact ⟨by decide +kernel, hg, q, hq, hout⟩

end Pool

end BinMarket
