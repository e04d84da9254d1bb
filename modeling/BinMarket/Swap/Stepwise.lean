import BinMarket.Bitmap.Liquidity
import BinMarket.Swap.Quote

/-!
The plain walk. It goes from bin to bin and looks at every bit on its way, where the walk of a quote
jumps. Both are meant to give the same quotes.
-/

namespace BinMarket

namespace Route

-- Whether the array of a bin has a bit.
def Covers (r : Route) (bin : Int) : Prop := Pool.Covers r.extension (BinArray.indexOf bin)

instance (r : Route) (bin : Int) : Decidable (r.Covers bin) :=
  inferInstanceAs (Decidable (Pool.Covers _ _))

def isLiquid (r : Route) (bin : Int) : Bool := r.pool.isLiquid r.extension (BinArray.indexOf bin)

-- What is covered lies within the range of the widest bitmap.
theorem bounds_of_covers {r : Route} {bin : Int} (h : r.Covers bin) :
    Extension.lowest ≤ BinArray.indexOf bin ∧ BinArray.indexOf bin ≤ Extension.highest := by
  unfold Covers Pool.Covers at h
  cases he : r.extension with
  | some e => simpa [he] using h
  | none =>
    simp only [he, BinArray.inlineLowest, BinArray.inlineHighest] at h
    simp only [Extension.lowest, Extension.highest]
    omega

theorem remaining_after {r : Route} {bin : Int} (h : r.Covers bin) :
    r.remaining (r.direction.after bin) < r.remaining bin := by
  have hc := bounds_of_covers h
  simp only [BinArray.indexOf, Extension.lowest, Extension.highest] at hc
  cases hd : r.direction <;>
    simp only [remaining, hd, Direction.after, BinArray.lowest, BinArray.highest, Extension.lowest,
      Extension.highest] <;> omega

end Route

namespace Walk

-- One bin of the plain walk: a bin of an unmarked array is passed by, any other is visited.
def plainStep (r : Route) (w : Walk) : Except Fault Walk :=
  if r.Covers w.active then
    if r.isLiquid w.active then
      match r.supplied? (BinArray.indexOf w.active) with
      | none => .error (.arrayNotSupplied (BinArray.indexOf w.active) w.left w.active)
      | some array => do
        visit r { w.touch array with fee := w.fee.track w.active } (← array.bin w.active)
    else .ok { w with active := r.direction.after w.active }
  else .error (.exhausted w.left w.active)

-- A bin of the plain walk that leaves some input is followed by the next one.
theorem active_plainStep {r : Route} {w w' : Walk} (h : plainStep r w = .ok w') (hl : 0 < w'.left) :
    r.Covers w.active ∧ w'.active = r.direction.after w.active := by
  unfold plainStep at h
  split at h
  · rename_i hc
    refine ⟨hc, ?_⟩
    split at h
    · split at h
      · contradiction
      · rename_i array _
        cases hb : array.bin w.active with
        | error e => simp only [hb] at h; contradiction
        | ok b =>
          simp only [hb] at h
          simpa only [active_touch] using active_visit h hl
    · cases h; rfl
  · contradiction

def runPlain (r : Route) (w : Walk) : Except Fault Walk :=
  if 0 < w.left then
    match _h : plainStep r w with
    | .error f => .error f
    | .ok w' => runPlain r w'
  else .ok w
termination_by if 0 < w.left then r.remaining w.active + 1 else 0
decreasing_by
  rename_i hl
  rw [if_pos hl]
  split
  · rename_i hl'
    obtain ⟨hc, ha⟩ := active_plainStep _h hl'
    have := Route.remaining_after hc
    rw [ha]
    omega
  · omega

end Walk

-- What a swap of an exact input gives when no bin is jumped over.
def Pool.stepwiseQuote (p : Pool) (e : Option Extension) (arrays : List BinArray) (amount : Int)
    (d : Direction) (slippage now : Int) : Except Fault SwapQuote := do
  let walk ← Walk.runPlain (Route.of p e arrays d) (Walk.start p amount now)
  walk.quote amount slippage d

end BinMarket
