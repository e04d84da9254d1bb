import BinMarket.Proofs.Swap.Accounts

/-!
What an output is worth. Every bin rounds against the trader, so what it gives is paid for at its own
price. Where prices rise with the bins they get worse along the way, and a whole walk is paid for at
the price of any bin before it.
-/

namespace BinMarket

open Direction FixedPoint

variable {d : Direction} {price other net out back : Int}

namespace Direction

-- Whether a net input pays for an output at a price, without any rounding.
def Pays (d : Direction) (price net out : Int) : Prop :=
  match d with
  | .xToY => out * unit ≤ net * price
  | .yToX => out * price ≤ net * unit

theorem pays_zero (d : Direction) (price : Int) : d.Pays price 0 0 := by
  cases d <;> simp [Pays]

theorem Pays.add {net' out' : Int} (h : d.Pays price net out) (h' : d.Pays price net' out') :
    d.Pays price (net + net') (out + out') := by
  cases d <;> simp only [Pays, add_mul] at * <;> exact add_le_add h h'

-- More input pays for less output all the more.
theorem Pays.mono {net' out' : Int} (h : d.Pays price net out) (hp : 0 ≤ price) (hn : net ≤ net')
    (ho : out' ≤ out) : d.Pays price net' out' := by
  cases d
  case xToY =>
    calc out' * unit
      _ ≤ out * unit   := mul_le_mul_of_nonneg_right ho (by decide)
      _ ≤ net * price  := h
      _ ≤ net' * price := mul_le_mul_of_nonneg_right hn hp
  case yToX =>
    calc out' * price
      _ ≤ out * price := mul_le_mul_of_nonneg_right ho hp
      _ ≤ net * unit  := h
      _ ≤ net' * unit := mul_le_mul_of_nonneg_right hn (by decide)

-- Prices get worse along the way: what pays at a later one pays at an earlier one.
theorem Pays.of_reaches (h : d.Pays other net out) (hr : d.reaches price other) (hn : 0 ≤ net)
    (ho : 0 ≤ out) : d.Pays price net out := by
  cases d
  case xToY => exact h.trans (mul_le_mul_of_nonneg_left hr hn)
  case yToX => exact (mul_le_mul_of_nonneg_left hr ho).trans h

-- What comes back for an output at the same price is no more than what it was bought for.
theorem Pays.back_le {net' : Int} (h : d.Pays price net out) (h' : d.opposite.Pays price net' back)
    (hp : 0 < price) (hle : net' ≤ out) : back ≤ net := by
  cases d
  case xToY =>
    refine le_of_mul_le_mul_right ?_ hp
    calc back * price
      _ ≤ net' * unit := h'
      _ ≤ out * unit  := mul_le_mul_of_nonneg_right hle (by decide)
      _ ≤ net * price := h
  case yToX =>
    refine le_of_mul_le_mul_right ?_ (show 0 < unit by decide)
    calc back * unit
      _ ≤ net' * price := h'
      _ ≤ out * price  := mul_le_mul_of_nonneg_right hle (le_of_lt hp)
      _ ≤ net * unit   := h

end Direction

namespace Bin

variable {b : Bin} {fee : DynamicFee} {amount bought : Int} {f : Fill} (hp : 0 < b.price)
include hp

theorem exists_buys_of_price (net : Int) (d : Direction) : ∃ bought, b.buys net d = .ok bought := by
  cases d
  case xToY => exact ⟨_, rfl⟩
  case yToX => exact ⟨_, shlDiv_down_eq hp⟩

-- A net input buys as much as it pays for.
theorem le_buys_iff (h : b.buys net d = .ok bought) : out ≤ bought ↔ d.Pays b.price net out := by
  cases d
  case xToY =>
    cases h
    exact le_mulShr_down_iff
  case yToX =>
    cases (shlDiv_down_eq hp).symm.trans h
    exact Int.le_ediv_iff_mul_le hp

theorem buys_mono {bought' : Int} (h : b.buys net d = .ok bought)
    (h' : b.buys other d = .ok bought') (hn : net ≤ other) : bought ≤ bought' :=
  (le_buys_iff hp h').mpr (((le_buys_iff hp h).mp le_rfl).mono (le_of_lt hp) hn le_rfl)

theorem exists_netForAll_of_price (d : Direction) : ∃ net, b.netForAll d = .ok net := by
  cases d
  case xToY => exact ⟨_, shlDiv_up_eq hp⟩
  case yToX => exact ⟨_, rfl⟩

-- The whole reserve costs the least net input that pays for it.
theorem netForAll_le_iff (h : b.netForAll d = .ok net) :
    net ≤ other ↔ d.Pays b.price other (b.output d) := by
  cases d
  case xToY =>
    cases (shlDiv_up_eq hp).symm.trans h
    exact ceil_le_iff hp
  case yToX =>
    cases h
    exact mulShr_up_le_iff

theorem pays_netForAll (h : b.netForAll d = .ok net) : d.Pays b.price net (b.output d) :=
  (netForAll_le_iff hp h).mp le_rfl

theorem fill_pays (h : b.fill fee amount d = .ok f) :
    d.Pays b.price (f.amountIn - f.fee) f.amountOut := by
  cases filling_of_fill h
  case nothing => exact pays_zero d b.price
  case drained hn _ =>
    simp only [add_sub_cancel_right]
    exact pays_netForAll hp hn
  case partly hb => exact ((le_buys_iff hp hb).mp le_rfl).mono (le_of_lt hp) le_rfl (min_le_left ..)

end Bin

-- Whether a bin stands under an id in the array where a swap looks for it.
def BinArray.Stocks (arrays : List BinArray) (id : Int) (b : Bin) : Prop :=
  ∃ a, find? arrays (indexOf id) = some a ∧ a.bin id = .ok b

-- The bins at hand with a property have prices, and these do not fall from one id to a higher one.
structure BinArray.Graded (arrays : List BinArray) (P : Bin → Prop) : Prop where
  priced : ∀ {i b}, Stocks arrays i b → P b → 0 < b.price
  rising : ∀ {i j b c}, Stocks arrays i b → Stocks arrays j c → P b → P c → i ≤ j →
    b.price ≤ c.price

namespace BinArray

variable {arrays : List BinArray} {a : BinArray} {i j id : Int} {b c : Bin} {P Q : Bin → Prop}

theorem Graded.mono (h : Graded arrays P) (hq : ∀ {b}, Q b → P b) : Graded arrays Q where
  priced hi hb       := h.priced hi (hq hb)
  rising hi hj hb hc := h.rising hi hj (hq hb) (hq hc)

theorem Graded.reaches (h : Graded arrays P) (hi : Stocks arrays i b) (hj : Stocks arrays j c)
    (hb : P b) (hc : P c) (hr : d.reaches i j) : d.reaches b.price c.price := by
  cases d
  case xToY => exact h.rising hj hi hc hb hr
  case yToX => exact h.rising hi hj hb hc hr

theorem Stocks.exists_mem (h : Stocks arrays id b) :
    ∃ a ∈ arrays, ∃ k : Fin 70, id = lowest a.index + k ∧ b = a.bins[k] := by
  have ⟨a, ha, hb⟩ := h
  unfold bin at hb
  split at hb
  case isFalse => contradiction
  case isTrue hh =>
    have ⟨_, _⟩ := hh
    have hk : (id - lowest a.index).toNat < 70 := by
      simp only [lowest, highest] at *
      omega
    refine ⟨a, mem_of_find? ha, ⟨_, hk⟩, by dsimp only; omega, ?_⟩
    rw [←Except.ok.inj hb, getElem!_pos a.bins _ hk]
    rfl

-- It is enough to look through the bins of all arrays at hand.
theorem graded_of_forall
    (h : ∀ a ∈ arrays, ∀ k : Fin 70, P a.bins[k] → 0 < a.bins[k].price ∧
      ∀ c ∈ arrays, ∀ l : Fin 70, P c.bins[l] → lowest a.index + k ≤ lowest c.index + l →
        a.bins[k].price ≤ c.bins[l].price) : Graded arrays P where
  priced hi hb := by
    obtain ⟨a, ha, k, -, rfl⟩ := hi.exists_mem
    exact (h a ha k hb).left
  rising hi hj hb hc hle := by
    obtain ⟨a, ha, k, rfl, rfl⟩ := hi.exists_mem
    obtain ⟨c, hc', l, rfl, rfl⟩ := hj.exists_mem
    exact (h a ha k hb).right c hc' l hc hle

end BinArray

namespace Walk

variable {r : Route} {s w : Walk} {g first : FilledBin}

-- The net input of a walk is what its fills took in, less their fees.
def netIn (w : Walk) : Int := w.total (·.amountIn) - w.total (·.fee)

theorem pays_total (h : ∀ g ∈ w.filled, d.Pays price (g.fill.amountIn - g.fill.fee) g.fill.amountOut) :
    d.Pays price w.netIn (w.total (·.amountOut)) := by
  simp only [netIn, total]
  generalize w.filled = filled at h
  induction filled
  case nil => exact pays_zero d price
  case cons g filled hi =>
    obtain ⟨hg, hf⟩ := List.forall_mem_cons.mp h
    simpa [add_sub_add_comm] using hg.add (hi hf)

-- Every later fill lies past the first one.
theorem Traced.reaches_first (h : Traced r s w) (hf : w.filled.getLast? = some first)
    (hg : g ∈ w.filled) : r.direction.reaches first.id g.id := by
  obtain ⟨filled, hw⟩ := List.getLast?_eq_some_iff.mp hf
  have ho := h.ordered
  rw [hw, List.pairwise_append] at ho
  rw [hw, List.mem_append, List.mem_singleton] at hg
  cases hg
  case inl hg => exact reaches_trans (reaches_after ..) (ho.right.right g hg first (by simp))
  case inr hg => exact hg ▸ reaches_refl ..

section Graded

variable {P : Bin → Prop} (hu : ∀ a ∈ r.arrays, ∀ b ∈ a.bins, b.Unsigned) (hc : s.fee.Charges)
  (hg : BinArray.Graded r.arrays P) (hp : ∀ {b : Bin}, b.output r.direction ≠ 0 → P b)
include hu hc hg hp

-- A walk is paid for at any price from which the prices of its bins only get worse.
theorem Traced.pays (h : Traced r s w)
    (hr : ∀ g ∈ w.filled, r.direction.reaches price g.bin.price) :
    r.direction.Pays price w.netIn (w.total (·.amountOut)) := by
  refine pays_total fun g hm => ?_
  have hgen := h.genuine g hm
  have ⟨_, hin⟩ := within_of_genuine hu hc hgen
  have ⟨_, _, hfill⟩ := hgen.input
  have hpos := hg.priced hgen.array (hp hgen.output_ne_zero)
  exact (Bin.fill_pays hpos hfill).of_reaches (hr g hm) (sub_nonneg.mpr hin.fee_le)
    hin.amountOut_nonneg

theorem Traced.pays_first (h : Traced r s w) (hf : w.filled.getLast? = some first) :
    r.direction.Pays first.bin.price w.netIn (w.total (·.amountOut)) := by
  refine h.pays hu hc hg hp fun g hm => ?_
  have hgen := h.genuine g hm
  have hgen' := h.genuine first (List.mem_of_getLast? hf)
  exact hg.reaches hgen'.array hgen.array (hp hgen'.output_ne_zero) (hp hgen.output_ne_zero)
    (h.reaches_first hf hm)

end Graded

end Walk

end BinMarket
