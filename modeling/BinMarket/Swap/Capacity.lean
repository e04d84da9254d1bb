import BinMarket.Swap.Stepwise

/-!
How much input a walk can take in: what each bin on its way takes for its whole reserve, added up to
the first array that is not at hand or to the end of the bitmaps.
-/

namespace BinMarket

-- The input, fee included, that buys a bin's whole reserve.
def Bin.capacity (b : Bin) (fee : DynamicFee) (d : Direction) : Except Fault Int :=
  if b.output d = 0 then .ok 0
  else do
    let net ← b.netForAll d
    return net + fee.onTop net

namespace Route

-- The capacity of the bins from one on. Each bin's fee is that of its own distance.
def capacityFrom (r : Route) (fee : DynamicFee) (bin : Int) : Except Fault Int :=
  if _h : r.Covers bin then
    if r.isLiquid bin then
      match r.supplied? (BinArray.indexOf bin) with
      | none => .ok 0
      | some array => do
        let here ← (← array.bin bin).capacity (fee.track bin) r.direction
        return here + (← capacityFrom r fee (r.direction.after bin))
    else capacityFrom r fee (r.direction.after bin)
  else .ok 0
termination_by r.remaining bin
decreasing_by all_goals exact remaining_after _h

end Route

-- The most that a quote can take in.
def Pool.capacity (p : Pool) (e : Option Extension) (arrays : List BinArray) (d : Direction)
    (now : Int) : Except Fault Int :=
  (Route.of p e arrays d).capacityFrom ((DynamicFee.ofPool p).refresh p.activeId now) p.activeId

end BinMarket
