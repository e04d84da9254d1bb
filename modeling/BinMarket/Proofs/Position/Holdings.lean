import BinMarket.Position.Holdings
import BinMarket.Proofs.Arrays
import BinMarket.Proofs.Position.Held
import BinMarket.Proofs.Sums

/-!
What positions hold of a bin's reserves. A part is rounded down, so parts whose shares stay within a
bin's supply stay within its reserves, however many positions they belong to.
-/

namespace BinMarket

variable {p : Position} {positions : List Position} {arrays : List BinArray} {a : BinArray} {b : Bin}
  {d : Direction} {x : Holding} {r : Holdings} {reports : List Holdings} {shares : List Int}
  {share reserve supply id : Int}

-- The part of the reserve that a swap takes from.
def Holding.output (x : Holding) : Direction → Int
  | .xToY => x.amountY
  | .yToX => x.amountX

def Holdings.output (r : Holdings) : Direction → Int
  | .xToY => r.totalY
  | .yToX => r.totalX

-- A report on a position by the arrays at hand.
def Reported (arrays : List BinArray) (p : Position) (r : Holdings) : Prop :=
  ∃ pool now lower upper decimalsX decimalsY,
    (∀ a, lower = some a ∨ upper = some a → BinArray.find? arrays a.index = some a) ∧
    p.holdings pool now lower upper decimalsX decimalsY = .ok r

-- What reports say of one bin.
def inBin (id : Int) (reports : List Holdings) : List Holding :=
  (reports.flatMap (·.bins)).filter (·.id = id)

theorem sum_partOf_le (hr : 0 ≤ reserve) (hs : 0 ≤ supply) (h : shares.sum ≤ supply) :
    (shares.map (partOf · reserve supply)).sum ≤ reserve := by
  obtain rfl | hpos := hs.eq_or_lt
  case inl => simpa [partOf] using hr
  case inr =>
    have hpart : (partOf · reserve supply) = fun share => share * reserve / supply := by
      funext share
      rw [partOf, if_neg hpos.ne', Int.fdiv_eq_ediv_of_nonneg _ hs]
    rw [hpart]
    have hd := sum_map_div_le hpos (shares.map (· * reserve))
    rw [List.map_map, List.sum_map_mul_right, List.map_id'] at hd
    calc (shares.map fun share => share * reserve / supply).sum
      _ ≤ shares.sum * reserve / supply := hd
      _ ≤ supply * reserve / supply     :=
        Int.ediv_le_ediv hpos (mul_le_mul_of_nonneg_right h hr)
      _ = reserve                       := Int.mul_ediv_cancel_left _ hpos.ne'

theorem Position.holdings_eq_ok {pool : Pool} {now decimalsX decimalsY : Int}
    {lower upper : Option BinArray}
    (h : p.holdings pool now lower upper decimalsX decimalsY = .ok r) :
    ∃ held, p.heldBins lower upper = .ok held ∧
      held.mapM (holdingIn pool.binStep decimalsX decimalsY p.version) = .ok r.bins ∧
      ∀ d, r.output d = (r.bins.map (·.output d)).sum := by
  unfold holdings at h
  simp only [bind_eq_ok_iff] at h
  obtain ⟨held, hh, bins, hb, _, _, _, _, he⟩ := h
  cases he
  exact ⟨held, hh, hb, fun d => by cases d <;> rfl⟩

theorem Position.holdingIn_eq_ok {step decimalsX decimalsY : Int} {v : PositionVersion}
    {h : HeldBin} (hx : holdingIn step decimalsX decimalsY v h = .ok x) :
    x.id = h.id ∧ ∀ d, x.output d = partOf x.share (h.bin.output d) h.bin.supply := by
  unfold holdingIn at hx
  simp only [bind_eq_ok_iff] at hx
  obtain ⟨_, _, _, _, he⟩ := hx
  cases he
  exact ⟨rfl, fun d => by cases d <;> rfl⟩

namespace Reported

variable (h : Reported arrays p r)
include h

theorem output_eq (d : Direction) : r.output d = (r.bins.map (·.output d)).sum := by
  have ⟨_, _, _, _, _, _, _, h⟩ := h
  have ⟨_, _, _, ho⟩ := Position.holdings_eq_ok h
  exact ho d

-- A report is about the bins of its position, and gives it their parts by share.
theorem of_mem (hx : x ∈ r.bins) : x.id ∈ p.ids ∧ ∃ b, BinArray.HasBin arrays x.id b ∧
    ∀ d, x.output d = partOf x.share (b.output d) b.supply := by
  have ⟨_, _, _, _, _, _, hs, h⟩ := h
  have ⟨_, hheld, hbins, _⟩ := Position.holdings_eq_ok h
  have ⟨hb, hmem, hhold⟩ := exists_of_mem_forall₂ (mapM_eq_ok_iff.mp hbins) hx
  have ⟨hid, ho⟩ := Position.holdingIn_eq_ok hhold
  have ⟨hids, a, hi, hsup, hholds⟩ := Position.holds_of_mem_heldBins hheld hmem
  rw [hid]
  exact ⟨hids, hb.bin, ⟨a, hi ▸ hs a hsup, hholds.bin⟩, ho⟩

end Reported

-- A bin whose reserves and supply are not negative.
structure Bin.Stocked (b : Bin) : Prop where
  amountX : 0 ≤ b.amountX
  amountY : 0 ≤ b.amountY
  supply  : 0 ≤ b.supply

instance (b : Bin) : Decidable b.Stocked :=
  decidable_of_iff (_ ∧ _ ∧ _)
    ⟨fun ⟨amountX, amountY, supply⟩ => ⟨amountX, amountY, supply⟩,
      fun ⟨amountX, amountY, supply⟩ => ⟨amountX, amountY, supply⟩⟩

theorem Bin.Stocked.output_nonneg (h : b.Stocked) (d : Direction) : 0 ≤ b.output d := by
  cases d
  case xToY => exact h.amountY
  case yToX => exact h.amountX

-- The bins that positions cover, each once.
def covered (positions : List Position) : List Int := (positions.flatMap (·.ids)).dedup

section Sums

variable (hr : positions.Forall₂ (Reported arrays) reports)
include hr

theorem of_mem_inBin (hx : x ∈ inBin id reports) : ∃ b, BinArray.HasBin arrays id b ∧
    ∀ d, x.output d = partOf x.share (b.output d) b.supply := by
  rw [inBin, List.mem_filter, List.mem_flatMap, decide_eq_true_iff] at hx
  obtain ⟨⟨r, hmem, hx⟩, rfl⟩ := hx
  have ⟨_, _, hrep⟩ := exists_of_mem_forall₂ hr hmem
  exact (hrep.of_mem hx).right

theorem sum_inBin_le (hb : BinArray.HasBin arrays id b) (hst : b.Stocked)
    (hs : ((inBin id reports).map (·.share)).sum ≤ b.supply) (d : Direction) :
    ((inBin id reports).map (·.output d)).sum ≤ b.output d := by
  have hpart : (inBin id reports).map (·.output d) =
      ((inBin id reports).map (·.share)).map (partOf · (b.output d) b.supply) := by
    rw [List.map_map]
    refine List.map_congr_left fun x hx => ?_
    have ⟨b', hb', ho⟩ := of_mem_inBin hr hx
    rw [ho d, hb'.unique hb]
    rfl
  rw [hpart]
  exact sum_partOf_le (hst.output_nonneg d) hst.supply hs

theorem sum_output_eq (d : Direction) : (reports.map (·.output d)).sum =
    ((covered positions).map fun id => ((inBin id reports).map (·.output d)).sum).sum := by
  have hall : (reports.map (·.output d)).sum =
      ((reports.flatMap (·.bins)).map (·.output d)).sum := by
    rw [List.map_flatMap, List.flatMap_def, List.sum_flatten, List.map_map]
    refine congrArg _ (List.map_congr_left fun r hmem => ?_)
    have ⟨_, _, hrep⟩ := exists_of_mem_forall₂ hr hmem
    exact hrep.output_eq d
  rw [hall]
  refine sum_by_key (List.nodup_dedup _) fun x hx => ?_
  have ⟨r, hmem, hx⟩ := List.mem_flatMap.mp hx
  have ⟨p, hp, hrep⟩ := exists_of_mem_forall₂ hr hmem
  exact List.mem_dedup.mpr (List.mem_flatMap.mpr ⟨p, hp, (hrep.of_mem hx).left⟩)

end Sums

-- Positions whose shares of each bin stay within its supply hold no more of it than its reserves, and
-- so no more in all than the reserves of the bins they cover.
theorem holdings_within_reserves (hst : ∀ a ∈ arrays, ∀ b ∈ a.bins, b.Stocked)
    (hr : positions.Forall₂ (Reported arrays) reports)
    (hs : ∀ id b, BinArray.HasBin arrays id b →
      ((inBin id reports).map (·.share)).sum ≤ b.supply) :
    (∀ id b, BinArray.HasBin arrays id b →
      ∀ d, ((inBin id reports).map (·.output d)).sum ≤ b.output d) ∧
    ∀ d, (reports.map (·.output d)).sum ≤
      ((covered positions).map (BinArray.reserveOf arrays d)).sum := by
  have hbin {id : Int} {b : Bin} (hb : BinArray.HasBin arrays id b) (d : Direction) :
      ((inBin id reports).map (·.output d)).sum ≤ b.output d := by
    have ⟨_, ha, hmem⟩ := hb
    exact sum_inBin_le hr hb (BinArray.forall_bin hst ha hmem) (hs id b hb) d
  refine ⟨fun _ _ => hbin, fun d => ?_⟩
  rw [sum_output_eq hr]
  refine List.sum_le_sum fun id _ => ?_
  -- A bin that no report names may be missing from the arrays altogether.
  cases hx : inBin id reports
  case nil      => exact BinArray.reserveOf_nonneg (fun a ha b hb => (hst a ha b hb).output_nonneg d) id
  case cons x _ =>
    have ⟨b, hb, _⟩ := of_mem_inBin hr (hx ▸ List.mem_cons_self)
    have ⟨_, ha, hmem⟩ := hb
    rw [←hx, BinArray.reserveOf_eq ha hmem]
    exact hbin hb d

-- Two positions share out a bin, and rounding leaves one unit of each token to nobody.
theorem holdings_within_reserves_threeShares :
    ∃ one two, oneShare.holdings paying 60 (some threeShares) none 6 6 = .ok one ∧
      twoShares.holdings paying 60 (some threeShares) none 6 6 = .ok two ∧
      one.totalX = 3 ∧ two.totalX = 6 ∧
      ∀ b, BinArray.HasBin [threeShares] 5 b →
        ∀ d, ((inBin 5 [one, two]).map (·.output d)).sum ≤ b.output d := by
  let shares (x : Holding) := (x.id, x.share)
  have hok : (oneShare.holdings paying 60 (some threeShares) none 6 6).map
      (fun r => (r.bins.map shares, r.totalX)) = .ok ([(5, 18446744073709551616)], 3) := by
    decide +kernel
  have hok' : (twoShares.holdings paying 60 (some threeShares) none 6 6).map
      (fun r => (r.bins.map shares, r.totalX)) = .ok ([(5, 36893488147419103232)], 6) := by
    decide +kernel
  have ⟨one, h, he⟩ := exists_of_map_eq_ok hok
  have ⟨two, h', he'⟩ := exists_of_map_eq_ok hok'
  have ⟨hb, hx⟩ := Prod.mk.inj he
  have ⟨hb', hx'⟩ := Prod.mk.inj he'
  have hfind : ∀ a, some threeShares = some a ∨ none = some a →
      BinArray.find? [threeShares] a.index = some a := by
    rintro a (⟨⟨⟩⟩ | ⟨⟨⟩⟩)
    decide +kernel
  have hr : [oneShare, twoShares].Forall₂ (Reported [threeShares]) [one, two] :=
    .cons ⟨_, _, _, _, _, _, hfind, h⟩ (.cons ⟨_, _, _, _, _, _, hfind, h'⟩ .nil)
  have hshares (id : Int) : ((inBin id [one, two]).map (·.share)).sum =
      ((([(5, 18446744073709551616), (5, 36893488147419103232)] : List (Int × Int)).filter
        (·.1 = id)).map (·.2)).sum := by
    have hall : ([one, two].flatMap (·.bins)).map shares =
        [(5, 18446744073709551616), (5, 36893488147419103232)] := by
      simp [hb, hb']
    rw [←hall, List.filter_map, List.map_map]
    rfl
  have hst : ∀ a ∈ [threeShares], ∀ b ∈ a.bins, b.Stocked := by decide +kernel
  refine ⟨one, two, h, h', hx, hx', (holdings_within_reserves hst hr fun id b hb => ?_).left 5⟩
  rw [hshares]
  by_cases hid : id = 5
  case pos =>
    subst hid
    rw [hb.unique ⟨_, hfind _ (.inl rfl), bin_threeShares⟩]
    decide
  case neg =>
    have ⟨_, ha, hmem⟩ := hb
    simpa [Ne.symm hid] using (BinArray.forall_bin hst ha hmem).supply

end BinMarket
