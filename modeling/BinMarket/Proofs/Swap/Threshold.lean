import BinMarket.Proofs.Fee.Adjoint
import BinMarket.Proofs.Swap.Worth

/-!
The input that drains a bin. A bin prices its fee on top when it is drained and inside when it is
not, and it does the same either way: it takes the input up to the one that buys its whole reserve,
keeps the fee inside of that, and sells for the rest at its price.
-/

namespace BinMarket.Bin

open Direction

variable {b : Bin} {fee : DynamicFee} {amount net bought : Int} {d : Direction}

section Priced

variable (hp : 0 < b.price)
include hp

-- A bin sells its whole reserve for as much net input as that costs, and for no less.
theorem output_le_buys_iff (hn : b.netForAll d = .ok net) (hb : b.buys amount d = .ok bought) :
    b.output d ≤ bought ↔ net ≤ amount :=
  (le_buys_iff hp hb).trans (netForAll_le_iff hp hn).symm

-- What the two ways to fill a bin have in common. The drained bin is the case to show: what the fee
-- inside leaves of the threshold is the net input for the whole reserve, and that buys all of it.
theorem exists_fill_min (hc : fee.Charges) (ho : b.output d ≠ 0) (hn : b.netForAll d = .ok net)
    (amount : Int) :
    let taken := min amount (net + fee.onTop net)
    ∃ bought, b.buys (taken - fee.inside taken) d = .ok bought ∧
      b.fill fee amount d = .ok
        { amountIn := taken, amountOut := min bought (b.output d), fee := fee.inside taken
          protocolFee := fee.protocolCut (fee.inside taken) } := by
  intro taken
  have ⟨bought, hb⟩ := exists_buys_of_price hp (taken - fee.inside taken) d
  refine ⟨bought, hb, ?_⟩
  by_cases hl : net + fee.onTop net < amount
  case neg =>
    have ht : taken = amount := min_eq_left (not_lt.mp hl)
    rw [ht] at hb ⊢
    exact fill_of_le ho hn (not_lt.mp hl) hb
  case pos =>
    have ht : taken = net + fee.onTop net := min_eq_right hl.le
    have hfee : fee.inside taken = fee.onTop net := by
      rw [ht, DynamicFee.inside_add_onTop hc.rate_nonneg]
    have hall : b.output d ≤ bought := by
      apply (output_le_buys_iff hp hn hb).mpr
      omega
    rw [hfee, ht, min_eq_right hall]
    exact fill_of_lt ho hn hl

end Priced

-- The threshold of a bin, which is the net input for its whole reserve and the fee on top of that.
-- 1. An input past the threshold is filled as the threshold is
-- 2. The bin takes the input up to the threshold, and charges the fee inside of what it takes
-- 3. It gives what the rest buys at its price, up to its reserve
-- 4. It gives its whole reserve exactly if the input reaches the threshold
theorem fill_threshold (hp : 0 < b.price) (ho : b.output d ≠ 0) (hc : fee.Charges) (amount : Int) :
    ∃ net f bought, b.netForAll d = .ok net ∧
      b.fill fee amount d = .ok f ∧ b.fill fee (min amount (net + fee.onTop net)) d = .ok f ∧
      f.amountIn = min amount (net + fee.onTop net) ∧
      f.fee = fee.inside f.amountIn ∧ f.protocolFee = fee.protocolCut f.fee ∧
      b.buys (f.amountIn - f.fee) d = .ok bought ∧ f.amountOut = min (b.output d) bought ∧
      (f.amountOut = b.output d ↔ net + fee.onTop net ≤ amount) := by
  have ⟨net, hn⟩ := exists_netForAll_of_price hp d
  have ⟨bought, hb, hf⟩ := exists_fill_min hp hc ho hn amount
  have ⟨bought', hb', hf'⟩ := exists_fill_min hp hc ho hn (min amount (net + fee.onTop net))
  rw [min_assoc, min_self] at hb' hf'
  cases hb.symm.trans hb'
  refine ⟨net, _, bought, hn, hf, hf', rfl, rfl, rfl, hb, min_comm .., ?_⟩
  rw [min_eq_right_iff, output_le_buys_iff hp hn hb, DynamicFee.le_sub_inside_iff, le_min_iff]
  exact and_iff_left le_rfl

-- A hundred units at three quarters each.
def cheap : Bin := { amountY := 100, price := 13835058055282163712 }

-- They cost 134 and a fee of 15. One unit less leaves a net input of 133, for which there are 99.
theorem fill_threshold_cheap :
    0 < cheap.price ∧ cheap.output .xToY ≠ 0 ∧ DynamicFee.capped.Charges ∧
    (∃ f, cheap.fill .capped 1000 .xToY = .ok f ∧ cheap.fill .capped 149 .xToY = .ok f ∧
      f.amountIn = 149 ∧ f.fee = 15 ∧ f.amountOut = 100) ∧
    ∃ f, cheap.fill .capped 148 .xToY = .ok f ∧ f.amountIn = 148 ∧ f.fee = 15 ∧
      f.amountOut ≠ 100 := by
  have hp : 0 < cheap.price := by decide
  have ho : cheap.output .xToY ≠ 0 := by decide
  have hc : DynamicFee.capped.Charges := ⟨by decide, by decide⟩
  have hn : cheap.netForAll .xToY = .ok 134 := by decide
  have htop : DynamicFee.capped.onTop 134 = 15 := by decide
  have hfill (amount : Int) : ∃ f, cheap.fill .capped amount .xToY = .ok f ∧
      cheap.fill .capped (min amount 149) .xToY = .ok f ∧ f.amountIn = min amount 149 ∧
      f.fee = DynamicFee.capped.inside f.amountIn ∧ (f.amountOut = 100 ↔ 149 ≤ amount) := by
    have ⟨net, f, _, hnet, hf, hmin, hin, hfee, _, _, _, hout⟩ := fill_threshold hp ho hc amount
    cases hn.symm.trans hnet
    rw [htop] at hmin hin hout
    exact ⟨f, hf, hmin, hin, hfee, hout⟩
  have ⟨f, hf, hmin, hin, hfee, hout⟩ := hfill 1000
  have ⟨g, hg, _, hin', hfee', hout'⟩ := hfill 148
  rw [hin] at hfee
  rw [hin'] at hfee'
  exact ⟨hp, ho, hc, ⟨f, hf, hmin, hin, hfee, hout.mpr (by decide)⟩,
    ⟨g, hg, hin', hfee', fun h => absurd (hout'.mp h) (by decide)⟩⟩

end BinMarket.Bin
