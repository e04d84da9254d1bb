import BinMarket.Proofs.Arrays
import BinMarket.Proofs.Position.Held
import BinMarket.Proofs.Rounding
import BinMarket.Proofs.Sums

/-!
What positions may claim of a reward. The active bin spreads what was emitted over its supply, and
rounds down for each share, so that all shares together claim no more than the emission.
-/

namespace BinMarket

open FixedPoint

variable {p : Position} {positions : List Position} {pool : Pool} {a : BinArray} {b : Bin}
  {lower upper : Option BinArray} {h : HeldBin} {held : List HeldBin} {v : PositionVersion} {s : Slot}
  {rewards : PerSlot Int} {now stored id n : Int}

-- What a slot emitted since its last update, until its end.
def Reward.emitted (r : Reward) (now : Int) : Int :=
  r.rate * max 0 (min now r.endsAt - r.updatedAt) / Position.emissionDivisor

theorem Reward.emitted_nonneg {r : Reward} (hr : 0 ≤ r.rate) (now : Int) : 0 ≤ r.emitted now :=
  Int.ediv_nonneg (mul_nonneg hr (le_max_left ..)) (by decide)

namespace Position

section Extrapolated

variable {r : Reward} {supply : Int} (hs : 0 < supply)
include hs

theorem extrapolated_nonneg (hr : 0 ≤ r.rate) (now : Int) : 0 ≤ extrapolated r supply now := by
  rw [extrapolated, Int.fdiv_eq_ediv_of_nonneg _ hs.le]
  exact Int.ediv_nonneg (r.emitted_nonneg hr now) hs.le

theorem mul_extrapolated_le (now : Int) : supply * extrapolated r supply now ≤ r.emitted now := by
  rw [extrapolated, Int.fdiv_eq_ediv_of_nonneg _ hs.le]
  exact Int.mul_ediv_self_le hs.ne'

end Extrapolated

theorem claimableRewards_eq_ok
    (h : p.claimableRewards pool now lower upper = .ok rewards) :
    ∃ held, p.heldBins lower upper = .ok held ∧ ∀ s, ∃ parts,
      held.mapM (rewardIn pool p.version now s) = .ok parts ∧ rewards.get s = parts.sum := by
  unfold claimableRewards at h
  simp only [bind_eq_ok_iff] at h
  obtain ⟨held, hh, one, h₁, two, h₂, he⟩ := h
  cases he
  refine ⟨held, hh, fun s => ?_⟩
  cases s
  case one => exact ⟨one, h₁, rfl⟩
  case two => exact ⟨two, h₂, rfl⟩

-- The share of a bin that earns rewards, nothing when the position has no entry for the bin.
def accrued (p : Position) (id : Int) : Int :=
  match p.share id with
  | .error _ => 0
  | .ok raw  => p.version.accrualShare raw

-- A position of one bin that has been credited with all that a slot has stored for the bin.
structure Settled (p : Position) (id : Int) (s : Slot) (stored : Int) : Prop where
  lowest     : p.lowest = id
  highest    : p.highest = id
  checkpoint : ∃ c, p.rewardCheckpoint id = .ok c ∧ s.entry c.completes = .ok stored ∧
                 s.entry c.pendings = .ok 0

namespace Settled

variable (hset : p.Settled id s stored)
include hset

theorem ids_eq : p.ids = [id] := by
  rw [ids, hset.lowest, hset.highest, binsFrom, sub_self]
  exact congrArg (fun i => [i]) (add_zero id)

theorem exists_heldBins (hb : a.bin id = .ok b) (upper : Option BinArray) :
    ∃ h, p.heldBins (some a) upper = .ok [h] ∧ h.id = id ∧ p.Holds a h := by
  have hi := BinArray.index_of_bin hb
  have hcover : Cover.of p (some a) upper = .ok ⟨a, none⟩ := by
    rw [Cover.of, hset.lowest, hset.highest, Cover.require_eq_ok_iff.mpr ⟨rfl, hi⟩]
    exact if_pos rfl
  have harray : Cover.array ⟨a, none⟩ id = .ok a := if_pos hi
  obtain ⟨h, hh⟩ := exists_held (hset.ids_eq ▸ List.mem_singleton_self id) harray hb
  obtain ⟨rfl, a', ha', hholds⟩ := held_eq_ok_iff.mp hh
  cases harray.symm.trans ha'
  refine ⟨h, bind_eq_ok_iff.mpr ⟨_, hcover, ?_⟩, rfl, hholds⟩
  rw [hset.ids_eq, mapM_eq_ok_iff]
  exact .cons hh .nil

end Settled

-- The rewards that a settled position has earned since are its share of the emission.
theorem rewardIn_of_settled (now : Int) (hset : p.Settled pool.activeId s stored)
    (hinit : (pool.rewards.get s).isInitialized) (hid : h.id = pool.activeId)
    (hh : p.Holds a h) (hstored : s.entry h.bin.rewardsPerShare = .ok stored)
    (hsup : accrualSupply h.scale h.bin.supply ≠ 0) :
    rewardIn pool p.version now s h = .ok (mulShr (p.accrued pool.activeId)
      (extrapolated (pool.rewards.get s) (accrualSupply h.scale h.bin.supply) now) places .down) := by
  have ⟨c, hc, hcomplete, hpending⟩ := hset.checkpoint
  obtain rfl : c = h.rewards := Except.ok.inj (hc.symm.trans (hid ▸ hh.rewards))
  have hshare : p.accrued pool.activeId = p.version.accrualShare h.share := by
    rw [accrued, ←hid, hh.share]
  rw [rewardIn, hinit, hstored, hcomplete, hpending, hshare]
  change Except.ok (earned _ (rewardsPerShare ..) stored 0) = _
  rw [rewardsPerShare, if_neg (by simp [hid, hsup]), earned, add_zero, add_sub_cancel_left]

section Emission

variable (hset : p.Settled pool.activeId s stored) (hb : a.bin pool.activeId = .ok b)
include hset hb

-- A claim is a part of what the shares have earned, rounded down.
theorem mul_get_le_of_settled (hinit : (pool.rewards.get s).isInitialized)
    (hstored : s.entry b.rewardsPerShare = .ok stored) (hsup : accrualSupply a.scale b.supply ≠ 0)
    (hr : p.claimableRewards pool now (some a) upper = .ok rewards) :
    rewards.get s * unit ≤ p.accrued pool.activeId *
      extrapolated (pool.rewards.get s) (accrualSupply a.scale b.supply) now := by
  have ⟨h, hheld, hid, hh⟩ := hset.exists_heldBins hb upper
  have ⟨held, hheld', hparts⟩ := claimableRewards_eq_ok hr
  cases hheld.symm.trans hheld'
  have ⟨parts, hp, hget⟩ := hparts s
  obtain rfl : b = h.bin := Except.ok.inj (hb.symm.trans (hid ▸ hh.bin))
  rw [←hh.scale] at hsup ⊢
  have hone := mapM_eq_ok_iff.mpr
    (.cons (rewardIn_of_settled now hset hinit hid hh hstored hsup) .nil)
  cases hone.symm.trans hp
  rw [hget, List.sum_singleton, ←twoTo_places]
  exact le_mulShr_down_iff.mp le_rfl

end Emission

end Position

-- A checkpoint with an entry for each slot.
structure RewardCheckpoint.Full (c : RewardCheckpoint) : Prop where
  completes : 2 ≤ c.completes.length
  pendings  : 2 ≤ c.pendings.length

theorem Slot.exists_entry (s : Slot) {xs : List Int} (h : 2 ≤ xs.length) :
    ∃ n, s.entry xs = .ok n := by
  have hs : s.place < xs.length := by
    cases s <;> simp only [place] <;> omega
  exact ⟨xs[s.place], by rw [entry, List.getElem?_eq_getElem hs]⟩

namespace Position

theorem exists_rewardIn (pool : Pool) (v : PositionVersion) (now : Int) (s : Slot)
    (hb : 2 ≤ h.bin.rewardsPerShare.length) (hc : h.rewards.Full) :
    ∃ n, rewardIn pool v now s h = .ok n := by
  have ⟨stored, hstored⟩ := s.exists_entry hb
  have ⟨complete, hcomplete⟩ := s.exists_entry hc.completes
  have ⟨pending, hpending⟩ := s.exists_entry hc.pendings
  rw [rewardIn]
  split
  case isTrue  => exact ⟨0, rfl⟩
  case isFalse =>
    rw [hstored, hcomplete, hpending]
    exact ⟨_, rfl⟩

-- Rewards can be read off when no record is short of an entry.
theorem exists_claimableRewards (pool : Pool) (now : Int)
    (hheld : p.heldBins lower upper = .ok held)
    (hb : ∀ h ∈ held, 2 ≤ h.bin.rewardsPerShare.length) (hc : ∀ h ∈ held, h.rewards.Full) :
    ∃ rewards, p.claimableRewards pool now lower upper = .ok rewards := by
  have hparts (s : Slot) : ∃ parts, held.mapM (rewardIn pool p.version now s) = .ok parts :=
    exists_mapM fun h hm => exists_rewardIn pool p.version now s (hb h hm) (hc h hm)
  have ⟨one, h₁⟩ := hparts .one
  have ⟨two, h₂⟩ := hparts .two
  exact ⟨_, bind_eq_ok_iff.mpr ⟨held, hheld, bind_eq_ok_iff.mpr ⟨one, h₁,
    bind_eq_ok_iff.mpr ⟨two, h₂, rfl⟩⟩⟩⟩

-- Positions that were credited with all that is stored claim no more than was emitted since, as long
-- as their shares stay within the supply. They all have a claim when no record is short of an entry.
theorem claimableRewards_within_emission (now : Int)
    (hinit : (pool.rewards.get s).isInitialized)
    (hrate : 0 ≤ (pool.rewards.get s).rate) (hb : a.bin pool.activeId = .ok b)
    (hstored : s.entry b.rewardsPerShare = .ok stored)
    (hsup : 1 ≤ accrualSupply a.scale b.supply)
    (hset : ∀ p ∈ positions, p.Settled pool.activeId s stored)
    (hsum : (positions.map (·.accrued pool.activeId)).sum ≤ accrualSupply a.scale b.supply) :
    (∀ claims, positions.Forall₂
      (fun p r => ∃ upper, p.claimableRewards pool now (some a) upper = .ok r) claims →
      (claims.map (·.get s)).sum * unit ≤ (pool.rewards.get s).emitted now) ∧
    (2 ≤ b.rewardsPerShare.length → (∀ p ∈ positions, ∀ c ∈ p.rewards, c.Full) →
      ∀ p ∈ positions, ∀ upper, ∃ r, p.claimableRewards pool now (some a) upper = .ok r) := by
  constructor
  case left =>
    intro claims hclaims
    let delta := extrapolated (pool.rewards.get s) (accrualSupply a.scale b.supply) now
    have hle : (claims.map (·.get s * unit)).Forall₂ (· ≤ ·)
        (positions.map (·.accrued pool.activeId * delta)) := by
      rw [List.forall₂_map_left_iff, List.forall₂_map_right_iff]
      refine .flip ((List.forall₂_and_left _ _).mpr ⟨hset, hclaims⟩ |>.imp ?_)
      intro p r ⟨hp, upper, hr⟩
      exact mul_get_le_of_settled hp hb hinit hstored (by omega) hr
    calc (claims.map (·.get s)).sum * unit
      _ = (claims.map (·.get s * unit)).sum                         :=
        (List.sum_map_mul_right ..).symm
      _ ≤ (positions.map (·.accrued pool.activeId * delta)).sum     := hle.sum_le_sum
      _ = (positions.map (·.accrued pool.activeId)).sum * delta     := List.sum_map_mul_right ..
      _ ≤ accrualSupply a.scale b.supply * delta                    :=
        mul_le_mul_of_nonneg_right hsum (extrapolated_nonneg hsup hrate now)
      _ ≤ (pool.rewards.get s).emitted now                          := mul_extrapolated_le hsup now
  case right =>
    intro h₂ hfull p hp upper
    have ⟨h, hheld, hid, hh⟩ := (hset p hp).exists_heldBins hb upper
    obtain rfl : b = h.bin := Except.ok.inj (hb.symm.trans (hid ▸ hh.bin))
    refine exists_claimableRewards pool now hheld (List.forall_mem_singleton.mpr h₂)
      (List.forall_mem_singleton.mpr ?_)
    have hmem : h.id ∈ p.ids := by rw [(hset p hp).ids_eq, hid, List.mem_singleton]
    have ⟨c, hc, hor⟩ := exists_rewardCheckpoint hmem
    obtain rfl : c = h.rewards := Except.ok.inj (hc.symm.trans hh.rewards)
    cases hor
    case inl hz => exact hz ▸ ⟨by decide, by decide⟩
    case inr hm => exact hfull p hp _ hm

-- At 60 the slot has emitted for ten seconds, of which one and two shares claim 19 out of 20.
theorem claimableRewards_within_emission_threeShares :
    ∃ one two, oneShare.claimableRewards paying 60 (some threeShares) none = .ok one ∧
      twoShares.claimableRewards paying 60 (some threeShares) none = .ok two ∧
      one.get .one = 6 ∧ two.get .one = 13 ∧
      ([one, two].map (·.get .one)).sum * unit ≤ (paying.rewards.get .one).emitted 60 := by
  have hset : ∀ p ∈ [oneShare, twoShares], p.Settled paying.activeId .one 1000 :=
    List.forall_mem_cons.mpr ⟨⟨rfl, rfl, _, rfl, rfl, rfl⟩,
      List.forall_mem_singleton.mpr ⟨rfl, rfl, _, rfl, rfl, rfl⟩⟩
  have h : oneShare.claimableRewards paying 60 (some threeShares) none = .ok ⟨6, 0⟩ := by
    decide +kernel
  have h' : twoShares.claimableRewards paying 60 (some threeShares) none = .ok ⟨13, 0⟩ := by
    decide +kernel
  have ⟨hle, _⟩ := claimableRewards_within_emission (s := .one) 60 (by decide) (by decide)
    bin_threeShares rfl (by decide) hset (by decide)
  exact ⟨_, _, h, h', rfl, rfl, hle _ (.cons ⟨none, h⟩ (.cons ⟨none, h'⟩ .nil))⟩

end Position

end BinMarket
