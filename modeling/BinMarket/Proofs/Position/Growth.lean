import BinMarket.Proofs.Fee.Overview
import BinMarket.Proofs.Position.Rewards
import BinMarket.Proofs.Price

/-!
Rewards in the course of time. What a slot has emitted only grows, from its last update to its end,
and so does what a position may claim of it. Nothing else about a claim depends on time, so it stays
as it is while the slot emits nothing.
-/

namespace BinMarket

open FixedPoint

variable {p : Position} {pool : Pool} {c : Cover} {lower upper : Option BinArray} {h : HeldBin}
  {held : List HeldBin} {v : PositionVersion} {s : Slot} {r : Reward} {rewards : PerSlot Int}
  {rates : PerSlot Decimal} {d : Decimal} {t u m n id : Int}

namespace Reward

theorem emitted_mono (hr : 0 ≤ r.rate) (h : t ≤ u) : r.emitted t ≤ r.emitted u := by
  refine Int.ediv_le_ediv (by decide) (mul_le_mul_of_nonneg_left ?_ hr)
  exact max_le_max_left _ (sub_le_sub_right (min_le_min_right _ h) _)

-- A slot emits nothing before its last update, after its end, or without a rate.
theorem emitted_eq_of_le_updatedAt (h : t ≤ u) (hu : u ≤ r.updatedAt) :
    r.emitted t = r.emitted u := by
  have hz {now : Int} (h : now ≤ r.updatedAt) : max 0 (min now r.endsAt - r.updatedAt) = 0 := by
    omega
  rw [emitted, emitted, hz hu, hz (h.trans hu)]

theorem emitted_eq_of_endsAt_le (h : t ≤ u) (ht : r.endsAt ≤ t) : r.emitted t = r.emitted u := by
  rw [emitted, emitted, min_eq_right ht, min_eq_right (ht.trans h)]

theorem emitted_eq_of_rate (hr : r.rate = 0) (t u : Int) : r.emitted t = r.emitted u := by
  rw [emitted, emitted, hr, zero_mul, zero_mul]

end Reward

namespace Pool

open Decimal

-- A rate above zero is read off as more than zero: the digits that it is computed with leave room
-- for the least rate that there is.
theorem rate_eq_zero_of_emission (hr : 0 ≤ r.rate) (hi : r.isInitialized) (ht : t ≤ r.endsAt)
    (h : emission r t = .ok d) (hd : d.value = 0) : r.rate = 0 := by
  by_contra hne
  have hone : (1 : ℝ) ≤ r.rate := by exact_mod_cast (by omega : 1 ≤ r.rate)
  rw [emission, if_neg (by simp [hi, ht])] at h
  have hdiv := div_rounded (p := readingDigits) (by decide) (x := ofInt r.rate) (y := ofInt unit)
    .intro .intro (by rw [value_ofInt]; decide)
  rw [h, value_ofInt, value_ofInt] at hdiv
  have hleast : (10 ^ (-20 : ℤ) : ℝ) ≤ (r.rate : ℚ) / (unit : ℚ) := by
    rw [unit, le_div_iff₀ (by norm_num)]
    push_cast
    norm_num
    linarith
  have hpos := hdiv.rounds.le_of_fits (Fits.ten_zpow (by decide) (by decide)) hleast
  rw [hd] at hpos
  exact absurd hpos (by norm_num)

-- A slot that is read off as emitting nothing does not emit anything from then on.
theorem emitted_eq_of_emissions (hr : 0 ≤ (pool.rewards.get s).rate)
    (hi : (pool.rewards.get s).isInitialized) (h : pool.emissions t = .ok rates)
    (hz : (rates.get s).value = 0) (htu : t ≤ u) :
    (pool.rewards.get s).emitted t = (pool.rewards.get s).emitted u := by
  have hs : emission (pool.rewards.get s) t = .ok (rates.get s) := by
    have ⟨one, h₁, h⟩ := bind_eq_ok_iff.mp h
    have ⟨two, h₂, h⟩ := bind_eq_ok_iff.mp h
    cases h
    cases s
    case one => exact eq_ok_of_liftM h₁
    case two => exact eq_ok_of_liftM h₂
  by_cases ht : t ≤ (pool.rewards.get s).endsAt
  case pos =>
    exact Reward.emitted_eq_of_rate (rate_eq_zero_of_emission hr hi ht hs hz) t u
  case neg => exact Reward.emitted_eq_of_endsAt_le htu (not_le.mp ht).le

end Pool

namespace Position

theorem accrualSupply_nonneg (hn : 0 ≤ n) (scale : ShareScale) : 0 ≤ accrualSupply scale n := by
  cases scale
  case small => exact hn
  case large => exact shiftRight_nonneg hn places

theorem accrualShare_nonneg (hn : 0 ≤ n) (v : PositionVersion) : 0 ≤ v.accrualShare n := by
  cases v
  case v1 => exact hn
  case v2 => exact shiftRight_nonneg hn places

theorem earned_mono {share a b : Int} (hs : 0 ≤ share) (h : a ≤ b) (complete pending : Int) :
    earned share a complete pending ≤ earned share b complete pending := by
  refine add_le_add_left (le_mulShr_down_iff.mpr ?_) _
  have hle := mul_le_mul_of_nonneg_left (sub_le_sub_right h complete) hs
  exact (le_mulShr_down_iff.mp le_rfl).trans hle

theorem rewardsPerShare_congr (he : h.id = pool.activeId →
    (pool.rewards.get s).emitted t = (pool.rewards.get s).emitted u) (stored : Int) :
    rewardsPerShare pool h s t stored = rewardsPerShare pool h s u stored := by
  by_cases hn : h.id ≠ pool.activeId ∨ accrualSupply h.scale h.bin.supply = 0
  case pos => rw [rewardsPerShare, rewardsPerShare, if_pos hn, if_pos hn]
  case neg =>
    rw [rewardsPerShare, rewardsPerShare, if_neg hn, if_neg hn]
    exact congrArg (fun e => stored + Int.fdiv e _) (he (not_not.mp (not_or.mp hn).left))

theorem rewardsPerShare_mono (hr : 0 ≤ (pool.rewards.get s).rate) (hs : 0 ≤ h.bin.supply)
    (htu : t ≤ u) (stored : Int) :
    rewardsPerShare pool h s t stored ≤ rewardsPerShare pool h s u stored := by
  by_cases hn : h.id ≠ pool.activeId ∨ accrualSupply h.scale h.bin.supply = 0
  case pos => rw [rewardsPerShare, rewardsPerShare, if_pos hn, if_pos hn]
  case neg =>
    have hsup := (accrualSupply_nonneg hs h.scale).lt_of_ne' (not_or.mp hn).right
    rw [rewardsPerShare, rewardsPerShare, if_neg hn, if_neg hn, extrapolated, extrapolated,
      Int.fdiv_eq_ediv_of_nonneg _ hsup.le, Int.fdiv_eq_ediv_of_nonneg _ hsup.le]
    exact Int.add_le_add_left (Int.ediv_le_ediv hsup (Reward.emitted_mono hr htu)) stored

-- Only a slot in use pays, and only into the active bin.
theorem rewardIn_congr (he : (pool.rewards.get s).isInitialized → h.id = pool.activeId →
    (pool.rewards.get s).emitted t = (pool.rewards.get s).emitted u) :
    rewardIn pool v t s h = rewardIn pool v u s h := by
  rw [rewardIn, rewardIn]
  split
  case isTrue  => rfl
  case isFalse hi =>
    simp only [rewardsPerShare_congr (he (by simpa using hi))]

theorem rewardIn_mono (hr : 0 ≤ (pool.rewards.get s).rate) (hn : 0 ≤ h.share)
    (hs : 0 ≤ h.bin.supply) (htu : t ≤ u) (hm : rewardIn pool v t s h = .ok m)
    (hm' : rewardIn pool v u s h = .ok n) : m ≤ n := by
  rw [rewardIn] at hm hm'
  split at hm
  case isTrue hi =>
    rw [if_pos hi] at hm'
    cases hm
    cases hm'
    exact le_rfl
  case isFalse hi =>
    rw [if_neg hi] at hm'
    simp only [bind_eq_ok_iff] at hm hm'
    obtain ⟨stored, hstored, complete, hcomplete, pending, hpending, he⟩ := hm
    obtain ⟨_, hstored', _, hcomplete', _, hpending', he'⟩ := hm'
    cases hstored.symm.trans hstored'
    cases hcomplete.symm.trans hcomplete'
    cases hpending.symm.trans hpending'
    cases he
    cases he'
    exact earned_mono (accrualShare_nonneg hn v) (rewardsPerShare_mono hr hs htu stored) ..

end Position

-- A property of each bin of the arrays that cover a position.
def Cover.ForallBins (c : Cover) (P : Bin → Prop) : Prop :=
  (∀ b ∈ c.lower.bins, P b) ∧ ∀ a ∈ c.upper, ∀ b ∈ a.bins, P b

theorem Cover.ForallBins.of_held {P : Bin → Prop} (hP : c.ForallBins P)
    (hh : p.held c id = .ok h) : P h.bin := by
  obtain ⟨rfl, a, ha, hholds⟩ := Position.held_eq_ok_iff.mp hh
  have hb := BinArray.mem_bins_of_bin hholds.bin
  have ⟨_, hor⟩ := Cover.array_eq_ok ha
  cases hor
  case inl hl => exact hP.left _ (hl ▸ hb)
  case inr hu => exact hP.right _ hu _ hb

namespace Position

theorem full_of_held (hfull : ∀ k ∈ p.rewards, k.Full) (hid : h.id ∈ p.ids)
    (hh : p.held c h.id = .ok h) : h.rewards.Full := by
  have ⟨_, _, _, hholds⟩ := held_eq_ok_iff.mp hh
  have ⟨k, hk, hor⟩ := exists_rewardCheckpoint hid
  cases hk.symm.trans hholds.rewards
  cases hor
  case inl hz => exact hz ▸ ⟨by decide, by decide⟩
  case inr hm => exact hfull _ hm

section Moments

variable {later : PerSlot Int} (hc : Cover.of p lower upper = .ok c)
  (hrewards : p.claimableRewards pool t lower upper = .ok rewards)
  (hlater : p.claimableRewards pool u lower upper = .ok later)
include hc hrewards hlater

-- What relates the rewards of each bin at two moments relates the terms of both claims.
theorem exists_parts_of_claimableRewards {R : Int → Int → Prop}
    (hR : ∀ h m n, h.id ∈ p.ids → p.held c h.id = .ok h →
      rewardIn pool p.version t s h = .ok m → rewardIn pool p.version u s h = .ok n → R m n) :
    ∃ parts parts' : List Int, rewards.get s = parts.sum ∧ later.get s = parts'.sum ∧
      parts.Forall₂ R parts' := by
  have ⟨held, hheld, hparts⟩ := claimableRewards_eq_ok hrewards
  have ⟨_, hheld', hparts'⟩ := claimableRewards_eq_ok hlater
  cases hheld.symm.trans hheld'
  have ⟨parts, hm, hsum⟩ := hparts s
  have ⟨parts', hm', hsum'⟩ := hparts' s
  refine ⟨parts, parts', hsum, hsum', forall₂_of_mapM (fun h hmem m n hpart hpart' => ?_) hm hm'⟩
  have ⟨hid, hh⟩ := held_of_mem_heldBins hc hheld hmem
  exact hR h m n hid hh hpart hpart'

theorem claimableRewards_mono (hr : 0 ≤ (pool.rewards.get s).rate) (hn : ∀ n ∈ p.shares, 0 ≤ n)
    (hs : c.ForallBins (0 ≤ ·.supply)) (htu : t ≤ u) : rewards.get s ≤ later.get s := by
  have ⟨parts, parts', hsum, hsum', hle⟩ :=
    exists_parts_of_claimableRewards (s := s) (R := (· ≤ ·)) hc hrewards hlater
      fun h m n hid hh hm hm' => by
        have ⟨_, _, _, hholds⟩ := held_eq_ok_iff.mp hh
        exact rewardIn_mono hr (hn _ (mem_shares hid hholds.share)) (hs.of_held hh) htu hm hm'
  rw [hsum, hsum']
  exact hle.sum_le_sum

-- Two claims differ only by what the slot emitted into a bin of the position in between.
theorem claimableRewards_congr (he : (pool.rewards.get s).isInitialized → pool.activeId ∈ p.ids →
    (pool.rewards.get s).emitted t = (pool.rewards.get s).emitted u) :
    rewards.get s = later.get s := by
  have ⟨parts, parts', hsum, hsum', heq⟩ :=
    exists_parts_of_claimableRewards (s := s) (R := (· = ·)) hc hrewards hlater
      fun h m n hid _ hm hm' => by
        have hin : rewardIn pool p.version t s h = rewardIn pool p.version u s h :=
          rewardIn_congr fun hi ha => he hi (ha ▸ hid)
        exact Except.ok.inj (hm.symm.trans (hin.trans hm'))
  rw [List.forall₂_eq_eq_eq] at heq
  rw [hsum, hsum', heq]

end Moments

-- Rewards that may be claimed now may be claimed later on, and they stay as they are before the
-- slot's last update, after its end, while the active bin is elsewhere, and as soon as the slot is
-- read off as emitting nothing.
theorem claimableRewards_grow (hr : ∀ s, 0 ≤ (pool.rewards.get s).rate)
    (hc : Cover.of p lower upper = .ok c) (hn : ∀ n ∈ p.shares, 0 ≤ n)
    (hs : c.ForallBins (0 ≤ ·.supply)) :
    (c.ForallBins (2 ≤ ·.rewardsPerShare.length) → (∀ k ∈ p.rewards, k.Full) →
      ∀ t, ∃ rewards, p.claimableRewards pool t lower upper = .ok rewards) ∧
    ∀ t u rewards later, t ≤ u → p.claimableRewards pool t lower upper = .ok rewards →
      p.claimableRewards pool u lower upper = .ok later → ∀ s,
      rewards.get s ≤ later.get s ∧
      (u ≤ (pool.rewards.get s).updatedAt ∨ (pool.rewards.get s).endsAt ≤ t ∨
        pool.activeId ∉ p.ids ∨
        (∃ rates, pool.emissions t = .ok rates ∧ (rates.get s).value = 0) →
        rewards.get s = later.get s) := by
  refine ⟨fun h₂ hfull t => ?read, fun t u rewards later htu hrewards hlater s =>
    ⟨claimableRewards_mono hc hrewards hlater (hr s) hn hs htu, fun hstill => ?still⟩⟩
  case read =>
    have ⟨held, hheld⟩ := exists_heldBins hc
    have hmem (h : HeldBin) (hm : h ∈ held) := held_of_mem_heldBins hc hheld hm
    refine exists_claimableRewards pool t hheld (fun h hm => h₂.of_held (hmem h hm).right) ?_
    exact fun h hm => full_of_held hfull (hmem h hm).left (hmem h hm).right
  case still =>
    refine claimableRewards_congr hc hrewards hlater fun hi ha => ?_
    obtain hu | ht | ha' | ⟨rates, hrates, hz⟩ := hstill
    · exact Reward.emitted_eq_of_le_updatedAt htu hu
    · exact Reward.emitted_eq_of_endsAt_le htu ht
    · exact absurd ha ha'
    · exact Pool.emitted_eq_of_emissions (hr s) hi hrates hz htu

-- Of thirty tokens a second, for fifty seconds, one share out of three gets a third of the
-- fifteenth part. After the slot's end at 100 it gets no more.
theorem claimableRewards_grow_oneShare :
    let claim (t : Int) := oneShare.claimableRewards paying t (some threeShares) none
    claim 60 = .ok ⟨6, 0⟩ ∧ claim 100 = .ok ⟨33, 0⟩ ∧
    (∀ u, 60 ≤ u → ∃ later, claim u = .ok later ∧ 6 ≤ later.one) ∧
    paying.emissions 101 = .ok ⟨.zero, .zero⟩ ∧
    ∀ u, 101 ≤ u → claim u = .ok ⟨33, 0⟩ := by
  intro claim
  have h₆₀ : claim 60 = .ok ⟨6, 0⟩ := by decide +kernel
  have h₁₀₁ : claim 101 = .ok ⟨33, 0⟩ := by decide +kernel
  have hemissions : paying.emissions 101 = .ok ⟨.zero, .zero⟩ := by decide +kernel
  have hc : Cover.of oneShare (some threeShares) none = .ok ⟨threeShares, none⟩ := rfl
  have hfull : ∀ k ∈ oneShare.rewards, k.Full :=
    List.forall_mem_singleton.mpr ⟨by decide, by decide⟩
  have hr : ∀ s, 0 ≤ (paying.rewards.get s).rate := fun s => by cases s <;> decide
  have ⟨hexists, hgrow⟩ := claimableRewards_grow hr hc (by decide) ⟨by decide +kernel, nofun⟩
  have hclaim := hexists ⟨by decide +kernel, nofun⟩ hfull
  refine ⟨h₆₀, by decide +kernel, fun u hu => ?_, hemissions, fun u hu => ?_⟩
  · have ⟨later, hlater⟩ := hclaim u
    exact ⟨later, hlater, (hgrow 60 u _ later hu h₆₀ hlater .one).left⟩
  · have ⟨later, hlater⟩ := hclaim u
    have hzero (s : Slot) : ((⟨.zero, .zero⟩ : PerSlot Decimal).get s).value = 0 := by
      cases s <;> exact Decimal.value_zero
    have hsame (s : Slot) : (⟨33, 0⟩ : PerSlot Int).get s = later.get s :=
      (hgrow 101 u _ later hu h₁₀₁ hlater s).right (.inr (.inr (.inr ⟨_, hemissions, hzero s⟩)))
    obtain ⟨one, two⟩ := later
    cases hsame .one
    cases hsame .two
    exact hlater

end Position

end BinMarket
