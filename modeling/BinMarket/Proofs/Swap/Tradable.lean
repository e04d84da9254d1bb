import BinMarket.Proofs.Swap.Fill
import BinMarket.Swap.Capacity

/-!
What a bin takes in when it sells all that it has. Where a reserve has a price every fill succeeds,
and 128 bits for each keep the amounts within bounds.
-/

namespace BinMarket

open FixedPoint

variable {b : Bin} {fee : DynamicFee} {d : Direction} {amount net c : Int}

namespace Bin

-- A reserve for sale has a price, and neither needs more than 128 bits.
structure Tradable (b : Bin) (d : Direction) : Prop where
  priced  : b.output d ≠ 0 → 0 < b.price
  reserve : b.output d ≤ maxU128
  price   : b.price ≤ maxU128

instance (b : Bin) (d : Direction) : Decidable (b.Tradable d) :=
  decidable_of_iff (_ ∧ _ ∧ _)
    ⟨fun ⟨priced, reserve, price⟩ => ⟨priced, reserve, price⟩,
      fun ⟨priced, reserve, price⟩ => ⟨priced, reserve, price⟩⟩

-- No bin takes in more, fee included.
def most : Int := 2 * (maxU128 * unit)

theorem Unsigned.output_pos (hu : b.Unsigned) (ho : b.output d ≠ 0) : 0 < b.output d :=
  lt_of_le_of_ne (hu.output_nonneg d) ho.symm

section Tradable

variable (hu : b.Unsigned) (ht : b.Tradable d) (ho : b.output d ≠ 0)
include hu ht ho

theorem exists_netForAll : ∃ net, b.netForAll d = .ok net ∧ 0 < net ∧ net ≤ maxU128 * unit := by
  have hp := ht.priced ho
  have hout := hu.output_pos ho
  have hr := ht.reserve
  cases d
  case xToY =>
    have hx : 0 < b.amountY * unit := mul_pos hout (by decide)
    have hxm : b.amountY * unit ≤ maxU128 * unit := mul_le_mul_of_nonneg_right hr (by decide)
    refine ⟨_, shlDiv_up_eq hp, ?_, ?_⟩
    · exact ceil_pos hp hx
    · rw [twoTo_places, ceil_le_iff hp]
      calc b.amountY * unit
        _ ≤ maxU128 * unit           := hxm
        _ ≤ maxU128 * unit * b.price := le_mul_of_one_le_right (by decide) hp
  case yToX =>
    have hx : 0 < b.amountX * b.price := mul_pos hout hp
    refine ⟨_, rfl, ?_, ?_⟩
    · rw [mulShr_up_eq]
      exact ceil_pos (twoTo_pos' _) hx
    · rw [mulShr_up_le_iff, twoTo_places]
      calc b.amountX * b.price
        _ ≤ maxU128 * maxU128     := mul_le_mul hr ht.price (le_of_lt hp) (by decide)
        _ ≤ maxU128 * unit * unit := by decide

theorem exists_buys (hn : 0 ≤ net) :
    ∃ bought, b.buys net d = .ok bought ∧ 0 ≤ bought ∧ bought ≤ net * maxU128 := by
  have hp := ht.priced ho
  cases d
  case xToY =>
    have hx : 0 ≤ net * b.price := mul_nonneg hn hu.price
    refine ⟨_, rfl, ?_, ?_⟩
    · rwa [le_mulShr_down_iff, zero_mul]
    · rw [mulShr, shiftRight_eq, twoTo_places]
      exact (Int.ediv_le_self _ hx).trans (mul_le_mul_of_nonneg_left ht.price hn)
  case yToX =>
    have hx : 0 ≤ net * unit := mul_nonneg hn (by decide)
    refine ⟨_, shlDiv_down_eq hp, ?_, ?_⟩
    · rw [twoTo_places]
      exact Int.ediv_nonneg hx hu.price
    · rw [twoTo_places]
      exact (Int.ediv_le_self _ hx).trans (mul_le_mul_of_nonneg_left (by decide) hn)

end Tradable

theorem capacity_of_output_eq_zero (ho : b.output d = 0) : b.capacity fee d = .ok 0 := by
  rw [capacity, if_pos ho]

theorem capacity_of_netForAll (ho : b.output d ≠ 0) (hn : b.netForAll d = .ok net) :
    b.capacity fee d = .ok (net + fee.onTop net) := by
  rw [capacity, if_neg ho, hn]
  rfl

theorem exists_capacity (hu : b.Unsigned) (ht : b.Tradable d) (hc : fee.Charges) :
    ∃ c, b.capacity fee d = .ok c ∧ 0 ≤ c ∧ c ≤ most := by
  by_cases ho : b.output d = 0
  case pos => exact ⟨0, capacity_of_output_eq_zero ho, le_rfl, by decide⟩
  case neg =>
    have ⟨net, hn, hpos, hle⟩ := exists_netForAll hu ht ho
    have htop := hc.onTop_nonneg (le_of_lt hpos)
    have htop' := fee.onTop_le (le_of_lt hpos)
    refine ⟨_, capacity_of_netForAll ho hn, by omega, ?_⟩
    rw [most]
    omega

-- A bin takes the whole input or what buys its whole reserve, whichever is less.
theorem fill_of_capacity (hu : b.Unsigned) (ht : b.Tradable d) (hc : b.capacity fee d = .ok c)
    (ha : 0 ≤ amount) : ∃ f, b.fill fee amount d = .ok f ∧ f.amountIn = min amount c := by
  by_cases ho : b.output d = 0
  case pos =>
    cases (capacity_of_output_eq_zero ho).symm.trans hc
    exact ⟨_, fill_of_output_eq_zero ho, (min_eq_right ha).symm⟩
  case neg =>
    have ⟨net, hn, _, _⟩ := exists_netForAll hu ht ho
    cases (capacity_of_netForAll ho hn).symm.trans hc
    by_cases hl : net + fee.onTop net < amount
    case pos => exact ⟨_, fill_of_lt ho hn hl, (min_eq_right (le_of_lt hl)).symm⟩
    case neg =>
      have hin : 0 ≤ amount - fee.inside amount := sub_nonneg.mpr (fee.inside_le ha)
      have ⟨_, hb, _⟩ := exists_buys hu ht ho hin
      exact ⟨_, fill_of_le ho hn (not_lt.mp hl) hb, (min_eq_left (not_lt.mp hl)).symm⟩

end Bin

end BinMarket
