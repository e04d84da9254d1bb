import BinMarket.Proofs.Fee
import BinMarket.Swap.Fill

/-!
What a bin can do with an input. It is empty and does nothing, it is drained, or it takes the whole
input for a part of its reserve.
-/

namespace BinMarket

open FixedPoint

-- A fill that takes no more than it is given and gives no more than there is.
structure Fill.Within (f : Fill) (amount output : Int) : Prop where
  amountIn_nonneg  : 0 ≤ f.amountIn
  amountIn_le      : f.amountIn ≤ amount
  amountOut_nonneg : 0 ≤ f.amountOut
  amountOut_le     : f.amountOut ≤ output
  fee_nonneg       : 0 ≤ f.fee
  fee_le           : f.fee ≤ f.amountIn

namespace Bin

variable {b : Bin} {fee : DynamicFee} {amount net bought : Int} {d : Direction} {f : Fill}

inductive Filling (b : Bin) (fee : DynamicFee) (amount : Int) (d : Direction) : Fill → Prop
  | nothing : b.output d = 0 → Filling b fee amount d {}
  | drained {net : Int} :
    b.output d ≠ 0 → b.netForAll d = .ok net → net + fee.onTop net < amount →
    Filling b fee amount d
      { amountIn := net + fee.onTop net, amountOut := b.output d, fee := fee.onTop net
        protocolFee := fee.protocolCut (fee.onTop net) }
  | partly {net bought : Int} :
    b.output d ≠ 0 → b.netForAll d = .ok net → amount ≤ net + fee.onTop net →
    b.buys (amount - fee.inside amount) d = .ok bought →
    Filling b fee amount d
      { amountIn := amount, amountOut := min bought (b.output d), fee := fee.inside amount
        protocolFee := fee.protocolCut (fee.inside amount) }

theorem fill_of_output_eq_zero (h : b.output d = 0) : b.fill fee amount d = .ok {} := by
  rw [fill, if_pos h]
  rfl

theorem fill_of_lt (h : b.output d ≠ 0) (hn : b.netForAll d = .ok net)
    (hl : net + fee.onTop net < amount) :
    b.fill fee amount d = .ok
      { amountIn := net + fee.onTop net, amountOut := b.output d, fee := fee.onTop net
        protocolFee := fee.protocolCut (fee.onTop net) } := by
  rw [fill, if_neg h, hn]
  exact if_pos hl

theorem fill_of_le (h : b.output d ≠ 0) (hn : b.netForAll d = .ok net)
    (hl : amount ≤ net + fee.onTop net) (hb : b.buys (amount - fee.inside amount) d = .ok bought) :
    b.fill fee amount d = .ok
      { amountIn := amount, amountOut := min bought (b.output d), fee := fee.inside amount
        protocolFee := fee.protocolCut (fee.inside amount) } := by
  rw [fill, if_neg h, hn]
  refine (if_neg (not_lt.mpr hl)).trans ?_
  rw [hb]
  rfl

theorem filling_of_fill (h : b.fill fee amount d = .ok f) : b.Filling fee amount d f := by
  by_cases ho : b.output d = 0
  case pos =>
    cases fill_of_output_eq_zero ho ▸ h
    exact .nothing ho
  case neg =>
    cases hn : b.netForAll d
    case error e =>
      rw [fill, if_neg ho, hn] at h
      contradiction
    case ok net =>
      by_cases hl : net + fee.onTop net < amount
      case pos =>
        cases fill_of_lt ho hn hl ▸ h
        exact .drained ho hn hl
      case neg =>
        cases hb : b.buys (amount - fee.inside amount) d
        case error e =>
          rw [fill, if_neg ho, hn] at h
          replace h := (if_neg hl).symm.trans h
          rw [hb] at h
          contradiction
        case ok bought =>
          cases fill_of_le ho hn (not_lt.mp hl) hb ▸ h
          exact .partly ho hn (not_lt.mp hl) hb

-- Reserves and a price that are not negative.
structure Unsigned (b : Bin) : Prop where
  amountX : 0 ≤ b.amountX
  amountY : 0 ≤ b.amountY
  price   : 0 ≤ b.price

instance (b : Bin) : Decidable b.Unsigned :=
  decidable_of_iff (_ ∧ _ ∧ _)
    ⟨fun ⟨amountX, amountY, price⟩ => ⟨amountX, amountY, price⟩,
      fun ⟨amountX, amountY, price⟩ => ⟨amountX, amountY, price⟩⟩

theorem Unsigned.output_nonneg (h : b.Unsigned) (d : Direction) : 0 ≤ b.output d := by
  cases d
  case xToY => exact h.amountY
  case yToX => exact h.amountX

theorem Unsigned.netForAll_nonneg (h : b.Unsigned) (hn : b.netForAll d = .ok net) : 0 ≤ net := by
  cases d
  case xToY =>
    have hz : b.price ≠ 0 := shlDiv_ne_zero (show shlDiv _ _ places .up = _ from hn)
    have hp := lt_of_le_of_ne h.price hz.symm
    rw [netForAll, shlDiv_up_eq hp] at hn
    cases hn
    exact ceil_nonneg hp (mul_nonneg h.amountY (le_of_lt (twoTo_pos' _)))
  case yToX =>
    cases hn
    rw [mulShr_up_eq]
    exact ceil_nonneg (twoTo_pos' _) (mul_nonneg h.amountX h.price)

theorem Unsigned.buys_nonneg (h : b.Unsigned) (ha : 0 ≤ amount)
    (hb : b.buys amount d = .ok bought) : 0 ≤ bought := by
  cases d
  case xToY =>
    cases hb
    rw [le_mulShr_down_iff, zero_mul]
    exact mul_nonneg ha h.price
  case yToX =>
    have hz : b.price ≠ 0 := shlDiv_ne_zero (show shlDiv _ _ places .down = _ from hb)
    have hp := lt_of_le_of_ne h.price hz.symm
    rw [buys, shlDiv_down_eq hp] at hb
    cases hb
    exact Int.ediv_nonneg (mul_nonneg ha (le_of_lt (twoTo_pos' _))) h.price

theorem Unsigned.fill_within (hb : b.Unsigned) (hc : fee.Charges) (ha : 0 ≤ amount)
    (h : b.fill fee amount d = .ok f) : f.Within amount (b.output d) := by
  cases filling_of_fill h
  case nothing ho => constructor <;> simp [ho, ha]
  case drained net _ hn hl =>
    have hnet := hb.netForAll_nonneg hn
    have htop := hc.onTop_nonneg hnet
    have hout := hb.output_nonneg d
    constructor <;> dsimp only <;> omega
  case partly net bought _ _ _ hbuys =>
    have hin := hc.inside_nonneg ha
    have hle := fee.inside_le ha
    have hbought := hb.buys_nonneg (by omega) hbuys
    have hout := hb.output_nonneg d
    constructor <;> dsimp only <;> omega

-- What a fill is charged is the fee inside of what it takes in, whether the bin is drained or not.
theorem fee_of_fill (hr : 0 ≤ fee.rate) (h : b.fill fee amount d = .ok f) :
    f.fee = fee.inside f.amountIn := by
  cases filling_of_fill h
  case nothing => simp [DynamicFee.inside, DynamicFee.ratePrecision]
  case drained => exact (DynamicFee.inside_add_onTop hr _).symm
  case partly  => rfl

theorem protocolFee_of_fill (h : b.fill fee amount d = .ok f) :
    f.protocolFee = fee.protocolCut f.fee := by
  cases filling_of_fill h
  case nothing => simp [DynamicFee.protocolCut]
  case drained => rfl
  case partly  => rfl

end Bin

end BinMarket
