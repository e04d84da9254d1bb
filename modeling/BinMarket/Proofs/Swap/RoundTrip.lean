import BinMarket.Proofs.Swap.Worth

/-!
What a swap is worth to the trader. With prices that rise with the bins, a quote gives no more than
its first bin would have given for the whole net input, and swapping the output back gives no more
than that net input.
-/

namespace BinMarket

open Direction

variable {p : Pool} {e : Option Extension} {arrays : List BinArray} {b : Bin} {d : Direction}
  {amount slippage slippage' now now' : Int} {q back : SwapQuote}

theorem Bin.isEmpty_eq_false (h : b.output d ≠ 0) : b.isEmpty = false := by
  cases d <;> simp_all [output, isEmpty]

namespace Pool

-- A quote is that of a walk without any input left, which has filled a bin.
theorem exists_traced_of_quote (hu : p.Unsigned arrays)
    (hq : p.quote e arrays amount d slippage now = .ok q) :
    ∃ w first impact, Walk.run (.of p e arrays d) (.start p amount now) = .ok w ∧
      Walk.Traced (.of p e arrays d) (.start p amount now) w ∧
      w.filled.getLast? = some first ∧ w.netIn = amount - q.fee ∧
      q = w.answer amount slippage impact := by
  have ⟨ha, _, _, w, hrun, hqw⟩ := exists_walk_of_quote hq
  have ⟨hw, hz⟩ := Walk.reached_of_run hrun
  have ht := Walk.traced_of_reached hw rfl rfl
  have hl := Walk.left_nonneg_of_reached hu.bins (hu.charges amount now) hw rfl rfl ha
  have ⟨_, _, impact, hs, _, _, he⟩ := Walk.exists_of_quote hqw
  have ⟨first, hf, _⟩ := Option.map_eq_some_iff.mp hs
  have hc : w.total (·.amountIn) + w.left = amount := ht.conserved
  refine ⟨w, first, impact, hrun, ht, hf, ?_, he⟩
  rw [he, Walk.netIn, show w.total (·.amountIn) = amount by omega]
  rfl

-- Three bins in a row, each at twice the price of the one below it.
def terrace : List BinArray := [
  { index := 1
    bins  := (((Vector.replicate 70 {}).setIfInBounds 4
        { amountY := 100, price := 9223372036854775808 }).setIfInBounds 5
        { amountX := 100, amountY := 100, price := 18446744073709551616 }).setIfInBounds 6
        { amountX := 100, price := 36893488147419103232 }
    scale := .large }]

theorem unsigned_terrace : sparse.Unsigned terrace := by
  decide +kernel

theorem graded_terrace : BinArray.Graded terrace (·.isEmpty = false) :=
  BinArray.graded_of_forall (by decide +kernel)

-- The whole net input would have bought as much at least at the price of the first bin filled.
theorem exists_buys_at_startBin (hu : p.Unsigned arrays)
    (hg : BinArray.Graded arrays (·.output d ≠ 0))
    (hq : p.quote e arrays amount d slippage now = .ok q) :
    ∃ w first bought, Walk.run (.of p e arrays d) (.start p amount now) = .ok w ∧
      w.startBin? = some first ∧ first.buys (amount - q.fee) d = .ok bought ∧
      q.amountOut ≤ bought := by
  have ⟨w, first, impact, hrun, ht, hf, hnet, he⟩ := exists_traced_of_quote hu hq
  have hfirst := ht.genuine first (List.mem_of_getLast? hf)
  have hp := hg.priced hfirst.array hfirst.output_ne_zero
  have ⟨bought, hb⟩ := Bin.exists_buys_of_price hp (amount - q.fee) d
  have hpays := ht.pays_first hu.bins (hu.charges amount now) hg id hf
  rw [hnet] at hpays
  refine ⟨w, first.bin, bought, hrun, by rw [Walk.startBin?, hf]; rfl, hb, ?_⟩
  rw [he]
  exact (Bin.le_buys_iff hp hb).mpr hpays

theorem exists_buys_at_startBin_terrace :
    sparse.Unsigned terrace ∧ BinArray.Graded terrace (·.output .xToY ≠ 0) ∧
    ∃ q w first bought, sparse.quote none terrace 150 .xToY 50 1000 = .ok q ∧ q.amountOut = 124 ∧
      Walk.run (.of sparse none terrace .xToY) (.start sparse 150 1000) = .ok w ∧
      w.startBin? = some first ∧ first.buys (150 - q.fee) .xToY = .ok bought ∧
      q.amountOut ≤ bought := by
  have hg := graded_terrace.mono (Bin.isEmpty_eq_false (d := .xToY))
  have hok : (sparse.quote none terrace 150 .xToY 50 1000).map (·.amountOut) = .ok 124 := by
    decide +kernel
  have ⟨q, hq, hout⟩ := exists_of_map_eq_ok hok
  have ⟨w, first, bought, hbest⟩ := exists_buys_at_startBin unsigned_terrace hg hq
  exact ⟨unsigned_terrace, hg, q, w, first, bought, hq, hout, hbest⟩

-- Swapping an output back never returns more than was paid for it after the fee. All bins of the way
-- out lie on one side of the active bin and all bins of the way back on the other, so some price
-- between them is no better for either.
theorem round_trip_le (hu : p.Unsigned arrays)
    (hg : BinArray.Graded arrays (·.isEmpty = false))
    (hq : p.quote e arrays amount d slippage now = .ok q)
    (hback : p.quote e arrays q.amountOut d.opposite slippage' now' = .ok back) :
    back.amountOut ≤ amount - q.fee := by
  have ⟨w, _, impact, _, ht, _, hnet, he⟩ := exists_traced_of_quote hu hq
  have ⟨w', first, impact', _, ht', hf', hnet', he'⟩ := exists_traced_of_quote hu hback
  have hc := hu.charges amount now
  have hc' := hu.charges q.amountOut now'
  have hfirst := ht'.genuine first (List.mem_of_getLast? hf')
  have hstock := Bin.isEmpty_eq_false hfirst.output_ne_zero
  have hpays' := ht'.pays_first hu.bins hc' hg Bin.isEmpty_eq_false hf'
  have hpays : d.Pays first.bin.price w.netIn (w.total (·.amountOut)) := by
    refine ht.pays hu.bins hc hg Bin.isEmpty_eq_false fun g hm => ?_
    have hgen := ht.genuine g hm
    have hr := reaches_opposite_iff.mp (ht'.onward first (List.mem_of_getLast? hf'))
    exact hg.reaches hfirst.array hgen.array hstock (Bin.isEmpty_eq_false hgen.output_ne_zero)
      (reaches_trans hr (ht.onward g hm))
  have hfee : 0 ≤ back.fee := by
    rw [he']
    exact Walk.total_fee_nonneg hu.bins hc' ht'
  have hout : back.amountOut = w'.total (·.amountOut) := by rw [he']; rfl
  have hin : q.amountOut = w.total (·.amountOut) := by rw [he]; rfl
  rw [hout, ←hnet]
  exact hpays.back_le hpays' (hg.priced hfirst.array hstock) (by omega)

theorem round_trip_le_terrace :
    sparse.Unsigned terrace ∧ BinArray.Graded terrace (·.isEmpty = false) ∧
    ∃ q back, sparse.quote none terrace 150 .xToY 50 1000 = .ok q ∧
      sparse.quote none terrace q.amountOut .yToX 0 2000 = .ok back ∧
      back.amountOut = 111 ∧ back.amountOut ≤ 150 - q.fee := by
  have hok : (sparse.quote none terrace 150 .xToY 50 1000).map (·.amountOut) = .ok 124 := by
    decide +kernel
  have hok' : (sparse.quote none terrace 124 .yToX 0 2000).map (·.amountOut) = .ok 111 := by
    decide +kernel
  have ⟨q, hq, hout⟩ := exists_of_map_eq_ok hok
  have ⟨back, hback, hout'⟩ := exists_of_map_eq_ok hok'
  rw [←hout] at hback
  have hle := round_trip_le (d := .xToY) unsigned_terrace graded_terrace hq hback
  exact ⟨unsigned_terrace, graded_terrace, q, back, hq, hback, hout', hle⟩

end Pool

end BinMarket
