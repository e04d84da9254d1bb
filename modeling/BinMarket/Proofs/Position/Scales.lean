import BinMarket.Proofs.Position.Holdings
import BinMarket.Proofs.Rounding

/-!
Shares and supplies on either scale. A position stores its shares, and an array its supplies, as
they are or with 64 more binary places. What a position is shown does not depend on either, as long
as shares with more places do not meet supplies without them.
-/

namespace BinMarket

open FixedPoint

variable {p : Position} {h : HeldBin} {s : ShareScale} {v : PositionVersion}
  {lower upper : Option BinArray} {n : Int}

-- What is stored for a single share.
def ShareScale.one : ShareScale → Int
  | small => 1
  | large => unit

def PositionVersion.scale : PositionVersion → ShareScale
  | v1 => .small
  | v2 => .large

-- Shares are brought to the scale of a supply by adding places to them, never by taking them away.
def PositionVersion.Meets (v : PositionVersion) (s : ShareScale) : Prop :=
  v.scale = .large → s = .large

instance (v : PositionVersion) (s : ShareScale) : Decidable (v.Meets s) :=
  inferInstanceAs (Decidable (_ → _))

def Bin.keptOn (s : ShareScale) (b : Bin) : Bin := { b with supply := b.supply * s.one }

def BinArray.keptOn (s : ShareScale) (a : BinArray) : BinArray :=
  { a with scale := s, bins := a.bins.map (·.keptOn s) }

def Position.keptAs (v : PositionVersion) (p : Position) : Position :=
  { p with version := v, shares := p.shares.map (· * v.scale.one)
           shares_le := by simpa using p.shares_le }

def HeldBin.keptAs (v : PositionVersion) (s : ShareScale) (h : HeldBin) : HeldBin :=
  { h with bin := h.bin.keptOn s, scale := s, share := h.share * v.scale.one }

def Cover.keptOn (s : ShareScale) (c : Cover) : Cover :=
  ⟨c.lower.keptOn s, c.upper.map (·.keptOn s)⟩

def Holding.on (s : ShareScale) (x : Holding) : Holding :=
  { x with supply := x.supply * s.one, share := x.share * s.one }

def Holdings.on (s : ShareScale) (r : Holdings) : Holdings := { r with bins := r.bins.map (·.on s) }

-- A bin of three shares, which are plain numbers, and an array that keeps it.
def few : Bin := { amountX := 10, amountY := 7, supply := 3, rewardsPerShare := [1000, 0] }

def fewShares : BinArray where
  index := 0
  bins  := (Vector.replicate 70 {}).setIfInBounds 5 few
  scale := .small

theorem ShareScale.one_pos (s : ShareScale) : 0 < s.one := by
  cases s <;> decide

namespace PositionVersion

-- A share is on the scale of a supply unless its own scale has more places than that.
theorem reserveShare_iff {raw : Int} :
    v.reserveShare raw s * v.scale.one = raw * s.one ↔ v.Meets s ∨ raw = 0 := by
  cases v <;> cases s <;> simp [reserveShare, scale, ShareScale.one, Meets, unit]
  omega

theorem reserveShare_eq (hv : v.Meets s) (n : Int) :
    v.reserveShare (n * v.scale.one) s = n * s.one := by
  have h := reserveShare_iff.mpr (.inl hv : v.Meets s ∨ n * v.scale.one = 0)
  rw [mul_right_comm] at h
  exact mul_right_cancel₀ v.scale.one_pos.ne' h

@[simp] theorem accrualShare_eq (v : PositionVersion) (n : Int) :
    v.accrualShare (n * v.scale.one) = n := by
  cases v
  case v1 => exact mul_one n
  case v2 =>
    rw [accrualShare, shiftRight_eq, twoTo_places]
    exact Int.mul_ediv_cancel n (by decide)

end PositionVersion

theorem ShareScale.accrualSupply_eq (s : ShareScale) (n : Int) :
    Position.accrualSupply s (n * s.one) = n := by
  cases s
  case small => exact mul_one n
  case large =>
    rw [Position.accrualSupply, shiftRight_eq, twoTo_places]
    exact Int.mul_ediv_cancel n (by decide)

theorem partOf_mul (share reserve supply : Int) (hn : 0 < n) :
    partOf (share * n) reserve (supply * n) = partOf share reserve supply := by
  simp only [partOf, mul_eq_zero, hn.ne', or_false]
  rw [mul_right_comm, Int.mul_fdiv_mul_of_pos_left _ _ hn]

theorem BinArray.bin_keptOn (s : ShareScale) (a : BinArray) (id : Int) :
    (a.keptOn s).bin id = (a.bin id).map (·.keptOn s) := by
  by_cases hh : Holds a.index id
  case neg => rw [bin, bin, if_neg hh, if_neg (show ¬Holds (a.keptOn s).index id from hh)]; rfl
  case pos =>
    have ⟨_, _⟩ := hh
    have hi : (id - lowest a.index).toNat < 70 := by
      simp only [lowest, highest] at *
      omega
    rw [bin_ok hh, bin_ok (show Holds (a.keptOn s).index id from hh)]
    simp only [keptOn, Except.map]
    rw [getElem!_pos a.bins _ hi, getElem!_pos (a.bins.map _) _ hi, Vector.getElem_map]

namespace Cover

theorem require_keptOn (s : ShareScale) (index : Int) (supplied : Option BinArray) :
    require index (supplied.map (·.keptOn s)) = (require index supplied).map (·.keptOn s) := by
  cases supplied
  case none   => rfl
  case some a =>
    simp only [Option.map_some, require, BinArray.keptOn]
    split <;> rfl

theorem of_keptOn (p : Position) (v : PositionVersion) (s : ShareScale)
    (lower upper : Option BinArray) :
    of (p.keptAs v) (lower.map (·.keptOn s)) (upper.map (·.keptOn s)) =
      (of p lower upper).map (·.keptOn s) := by
  simp only [of, require_keptOn, Position.keptAs, bind_map_eq, map_bind_eq]
  congr 1
  funext a
  split
  case isTrue  => rfl
  case isFalse =>
    rw [map_bind_eq]
    rfl

theorem array_keptOn (s : ShareScale) (c : Cover) (id : Int) :
    (c.keptOn s).array id = (c.array id).map (·.keptOn s) := by
  have hi (a : BinArray) : (a.keptOn s).index = a.index := rfl
  by_cases hl : c.lower.index = BinArray.indexOf id
  case pos => simp only [array, keptOn, hi, if_pos hl, Except.map]
  case neg =>
    simp only [array, keptOn, hi, if_neg hl]
    cases c.upper
    case none   => rfl
    case some a =>
      simp only [Option.map_some, hi]
      split <;> rfl

end Cover

namespace Position

theorem entry_map {α β : Type} (f : α → β) (xs : List α) (offset : Int) :
    entry (xs.map f) offset = (entry xs offset).map f := by
  simp only [entry, List.length_map, List.getElem?_map]
  generalize (if offset < 0 then offset + ↑xs.length else offset) = i
  by_cases hi : i < 0
  case pos => simp only [if_pos hi, Except.map]
  case neg =>
    simp only [if_neg hi]
    cases xs[i.toNat]? <;> rfl

-- What is kept about the bins of a position differs in nothing but shares, supplies and scales.
theorem heldBins_keptAs (p : Position) (v : PositionVersion) (s : ShareScale)
    (lower upper : Option BinArray) :
    (p.keptAs v).heldBins (lower.map (·.keptOn s)) (upper.map (·.keptOn s)) =
      (p.heldBins lower upper).map (·.map (·.keptAs v s)) := by
  have hheld (c : Cover) (id : Int) :
      (p.keptAs v).held (c.keptOn s) id = (p.held c id).map (·.keptAs v s) := by
    have hshare : (p.keptAs v).share id = (p.share id).map (· * v.scale.one) := entry_map ..
    simp only [held, Cover.array_keptOn, bind_map_eq, map_bind_eq, BinArray.bin_keptOn, hshare]
    rfl
  rw [heldBins, Cover.of_keptOn, bind_map_eq, heldBins, map_bind_eq]
  congr 1
  funext c
  exact mapM_eq_map (hheld c) p.ids

section Meets

variable (hv : v.Meets s)
include hv

theorem holdingIn_keptAs (step decimalsX decimalsY : Int) (h : HeldBin) :
    holdingIn step decimalsX decimalsY v (h.keptAs v s) =
      (holdingIn step decimalsX decimalsY .v1 (h.keptAs .v1 .small)).map (·.on s) := by
  have hshare : v.reserveShare (h.keptAs v s).share (h.keptAs v s).scale = h.share * s.one :=
    PositionVersion.reserveShare_eq hv h.share
  have hplain : PositionVersion.v1.reserveShare (h.keptAs .v1 .small).share .small = h.share :=
    mul_one h.share
  have hpart (reserve : Int) : partOf (h.share * s.one) reserve (h.bin.supply * s.one) =
      partOf h.share reserve (h.bin.supply * 1) := by
    rw [mul_one, partOf_mul _ _ _ s.one_pos]
  rw [holdingIn, holdingIn, map_bind_eq, hshare, show (h.keptAs .v1 .small).scale = .small from rfl,
    hplain]
  refine congrArg (Price.ofBin step h.id >>= ·) (funext fun price => ?_)
  rw [map_bind_eq]
  refine congrArg (Price.perToken (.decimal price) decimalsX decimalsY >>= ·) (funext fun _ => ?_)
  simp only [HeldBin.keptAs, Bin.keptOn, hpart]
  refine congrArg Except.ok ?_
  simp only [Holding.on, ShareScale.one, mul_one]

end Meets

theorem feesIn_keptAs (v : PositionVersion) (s : ShareScale) (h : HeldBin) :
    feesIn v (h.keptAs v s) = feesIn .v1 (h.keptAs .v1 .small) := by
  simp only [feesIn, HeldBin.keptAs, PositionVersion.accrualShare_eq, Bin.keptOn]

theorem rewardIn_keptAs (pool : Pool) (v : PositionVersion) (s : ShareScale) (now : Int)
    (slot : Slot) (h : HeldBin) :
    rewardIn pool v now slot (h.keptAs v s) = rewardIn pool .v1 now slot (h.keptAs .v1 .small) := by
  simp only [rewardIn, rewardsPerShare, HeldBin.keptAs, Bin.keptOn,
    PositionVersion.accrualShare_eq, ShareScale.accrualSupply_eq]

theorem claimableFees_keptAs (p : Position) (v : PositionVersion) (s : ShareScale)
    (lower upper : Option BinArray) :
    (p.keptAs v).claimableFees (lower.map (·.keptOn s)) (upper.map (·.keptOn s)) =
      (p.keptAs .v1).claimableFees (lower.map (·.keptOn .small)) (upper.map (·.keptOn .small)) := by
  have hversion (v : PositionVersion) : (p.keptAs v).version = v := rfl
  simp only [claimableFees, heldBins_keptAs, bind_map_eq, List.map_map, Function.comp_def, hversion,
    feesIn_keptAs v s]

theorem claimableRewards_keptAs (p : Position) (v : PositionVersion) (s : ShareScale)
    (pool : Pool) (now : Int) (lower upper : Option BinArray) :
    (p.keptAs v).claimableRewards pool now (lower.map (·.keptOn s)) (upper.map (·.keptOn s)) =
      (p.keptAs .v1).claimableRewards pool now (lower.map (·.keptOn .small))
        (upper.map (·.keptOn .small)) := by
  have hversion (v : PositionVersion) : (p.keptAs v).version = v := rfl
  simp only [claimableRewards, heldBins_keptAs, bind_map_eq, List.mapM_map, Function.comp_def,
    hversion, rewardIn_keptAs pool v s]

-- Whichever of the three ways a position and its arrays keep shares and supplies in, the report on
-- it is the same but for the scale of shares and supplies, and so are its claims.
theorem reports_agree (hv : v.Meets s) (p : Position) (pool : Pool) (now : Int)
    (lower upper : Option BinArray) (decimalsX decimalsY : Int) :
    (p.keptAs v).holdings pool now (lower.map (·.keptOn s)) (upper.map (·.keptOn s))
        decimalsX decimalsY =
      ((p.keptAs .v1).holdings pool now (lower.map (·.keptOn .small)) (upper.map (·.keptOn .small))
        decimalsX decimalsY).map (·.on s) ∧
    (p.keptAs v).claimableFees (lower.map (·.keptOn s)) (upper.map (·.keptOn s)) =
      (p.keptAs .v1).claimableFees (lower.map (·.keptOn .small)) (upper.map (·.keptOn .small)) ∧
    (p.keptAs v).claimableRewards pool now (lower.map (·.keptOn s)) (upper.map (·.keptOn s)) =
      (p.keptAs .v1).claimableRewards pool now (lower.map (·.keptOn .small))
        (upper.map (·.keptOn .small)) := by
  refine ⟨?holdings, claimableFees_keptAs .., claimableRewards_keptAs ..⟩
  case holdings =>
    simp only [holdings, heldBins_keptAs, bind_map_eq, map_bind_eq, List.mapM_map,
      claimableFees_keptAs p v s, claimableRewards_keptAs p v s]
    refine congrArg (p.heldBins lower upper >>= ·) (funext fun held => ?_)
    refine (congrArg (· >>= _) (mapM_eq_map (fun h => holdingIn_keptAs hv _ _ _ h) held)).trans ?_
    rw [bind_map_eq]
    refine congrArg (held.mapM _ >>= ·) (funext fun bins => ?_)
    refine congrArg (Position.claimableFees _ _ _ >>= ·) (funext fun fees => ?_)
    refine congrArg (Position.claimableRewards _ _ _ _ _ >>= ·) (funext fun rewards => ?_)
    refine congrArg Except.ok ?_
    simp only [Holdings.on, Holding.on, List.map_map, Function.comp_def]
    rfl

-- One share of the three that a bin has, all of them as plain numbers.
theorem reports_agree_fewShares : PositionVersion.v2.Meets .large ∧
    ∃ r, (oneShare.keptAs .v1).holdings paying 60 (some (fewShares.keptOn .small)) none 6 6 =
        .ok r ∧
      (oneShare.keptAs .v2).holdings paying 60 (some (fewShares.keptOn .large)) none 6 6 =
        .ok (r.on .large) ∧
      r.totalX = 3 ∧ r.totalY = 2 ∧ r.rewards = ⟨6, 0⟩ := by
  have hv : PositionVersion.v2.Meets .large := by decide
  have hok : ((oneShare.keptAs .v1).holdings paying 60 (some (fewShares.keptOn .small)) none
      6 6).map (fun r => (r.totalX, r.totalY, r.rewards)) = .ok (3, 2, ⟨6, 0⟩) := by
    decide +kernel
  have ⟨r, hr, he⟩ := exists_of_map_eq_ok hok
  have ⟨hagree, _, _⟩ := reports_agree hv oneShare paying 60 (some fewShares) none 6 6
  simp only [Prod.mk.injEq] at he
  exact ⟨hv, r, hr, hagree.trans (congrArg (Except.map _) hr), he⟩

section Within

variable {x : Holding} {r : Holdings} {pool : Pool} {step now decimalsX decimalsY : Int}

theorem share_of_holdingIn (hx : holdingIn step decimalsX decimalsY v h = .ok x) :
    x.share = v.reserveShare h.share h.scale := by
  unfold holdingIn at hx
  simp only [bind_eq_ok_iff] at hx
  obtain ⟨_, _, _, _, he⟩ := hx
  cases he
  rfl

-- A share that is no more than the supply is shown no more than the reserves, once it is on the
-- same scale.
theorem output_le_of_meets (hx : holdingIn step decimalsX decimalsY v h = .ok x)
    (hv : v.Meets h.scale) (hb : h.bin.Stocked)
    (hle : (h.share : ℚ) / v.scale.one ≤ h.bin.supply / h.scale.one) (d : Direction) :
    x.output d ≤ h.bin.output d := by
  have hshare : x.share ≤ h.bin.supply := by
    have hone : (0 : ℚ) < v.scale.one := Int.cast_pos.mpr v.scale.one_pos
    have hone' : (0 : ℚ) < h.scale.one := Int.cast_pos.mpr h.scale.one_pos
    rw [div_le_div_iff₀ hone hone'] at hle
    refine le_of_mul_le_mul_right ?_ v.scale.one_pos
    rw [share_of_holdingIn hx, PositionVersion.reserveShare_iff.mpr (.inl hv)]
    exact_mod_cast hle
  have ⟨_, hout⟩ := holdingIn_eq_ok hx
  rw [hout d]
  have hsum : [x.share].sum ≤ h.bin.supply := by simpa
  simpa using sum_partOf_le (hb.output_nonneg d) hb.supply hsum

-- Every bin of a report comes with a share on the scale of its supply, unless shares with more
-- places meet a supply without them, and such a share gets no more than the bin holds.
theorem holdings_within_bins
    (hr : p.holdings pool now lower upper decimalsX decimalsY = .ok r) :
    ∃ held, p.heldBins lower upper = .ok held ∧ held.Forall₂ (fun h x => x.id = h.id ∧
      (x.share * p.version.scale.one = h.share * h.scale.one ↔
        p.version.Meets h.scale ∨ h.share = 0) ∧
      (p.version.Meets h.scale → h.bin.Stocked →
        (h.share : ℚ) / p.version.scale.one ≤ h.bin.supply / h.scale.one →
        ∀ d, x.output d ≤ h.bin.output d)) r.bins := by
  have ⟨held, hheld, hbins, _⟩ := holdings_eq_ok hr
  refine ⟨held, hheld, (mapM_eq_ok_iff.mp hbins).imp fun h x hx => ⟨?id, ?scale, ?within⟩⟩
  case id     => exact (holdingIn_eq_ok hx).left
  case scale  => rw [share_of_holdingIn hx, PositionVersion.reserveShare_iff]
  case within => exact output_le_of_meets hx

end Within

-- Two shares of three get six out of ten.
theorem holdings_within_bins_threeShares :
    ∃ r held, twoShares.holdings paying 60 (some threeShares) none 6 6 = .ok r ∧
      twoShares.heldBins (some threeShares) none = .ok held ∧
      r.bins.map (·.amountX) = [6] ∧
      held.Forall₂ (fun h x => ∀ d, x.output d ≤ h.bin.output d) r.bins := by
  have hok : (twoShares.holdings paying 60 (some threeShares) none 6 6).map
      (·.bins.map (·.amountX)) = .ok [6] := by
    decide +kernel
  have hkept : (twoShares.heldBins (some threeShares) none).map
      (·.map fun h => (h.bin, h.scale, h.share)) =
        .ok [(shared, .large, 36893488147419103232)] := by
    decide +kernel
  have ⟨r, hr, hx⟩ := exists_of_map_eq_ok hok
  have ⟨held, hheld, hbins⟩ := holdings_within_bins hr
  rw [hheld] at hkept
  obtain ⟨h, rfl, he⟩ := List.map_eq_singleton_iff.mp (Except.ok.inj hkept)
  simp only [Prod.mk.injEq] at he
  have hmem : ∀ h' ∈ [h], h'.bin = shared ∧ h'.scale = .large ∧ h'.share = 36893488147419103232 :=
    List.forall_mem_singleton.mpr he
  refine ⟨r, [h], hr, hheld, hx, ((List.forall₂_and_left _ _).mpr ⟨hmem, hbins⟩).imp ?_⟩
  intro h x ⟨⟨hb, hs, hn⟩, _, _, hwithin⟩
  refine hwithin (hs ▸ by decide) (hb ▸ by decide) ?_
  rw [hb, hs, hn]
  norm_num [shared, PositionVersion.scale, ShareScale.one, unit, twoShares]

-- One share out of three, which is stored with more places than the supply: the report takes it for
-- 2 to the 64 shares.
theorem holdings_exceed_fewShares :
    ∃ b raw r x, fewShares.bin 5 = .ok b ∧ b.Stocked ∧ (oneShare.keptAs .v2).share 5 = .ok raw ∧
      0 ≤ raw ∧ (raw : ℚ) / PositionVersion.v2.scale.one ≤ b.supply / fewShares.scale.one ∧
      (oneShare.keptAs .v2).holdings paying 60 (some fewShares) none 6 6 = .ok r ∧ r.bins = [x] ∧
      x.id = 5 ∧ b.amountX < x.amountX ∧ b.amountY < x.amountY := by
  have hb : fewShares.bin 5 = .ok few := by decide +kernel
  have hraw : (oneShare.keptAs .v2).share 5 = .ok unit := by decide +kernel
  have hok : ((oneShare.keptAs .v2).holdings paying 60 (some fewShares) none 6 6).map
      (·.bins.map fun x => (x.id, x.amountX, x.amountY)) =
        .ok [(5, 61489146912365172053, 43042402838655620437)] := by
    decide +kernel
  have ⟨r, hr, he⟩ := exists_of_map_eq_ok hok
  obtain ⟨x, hx, he⟩ := List.map_eq_singleton_iff.mp he
  simp only [Prod.mk.injEq] at he
  have ⟨hid, hamountX, hamountY⟩ := he
  refine ⟨few, unit, r, x, hb, by decide, hraw, by decide, ?_, hr, hx, hid, ?_, ?_⟩
  · norm_num [few, fewShares, PositionVersion.scale, ShareScale.one, unit]
  · rw [hamountX]
    decide
  · rw [hamountY]
    decide

end Position

end BinMarket
