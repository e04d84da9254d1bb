import BinMarket.Position.Accrual
import BinMarket.Proofs.Outcome

/-!
The bins of a position, found in the arrays that are supplied for it.
-/

namespace BinMarket

variable {p : Position} {c : Cover} {lower upper lower' upper' : Option BinArray} {a : BinArray}
  {h : HeldBin} {held : List HeldBin} {index id : Int}

namespace Cover

theorem require_eq_ok_iff : require index lower = .ok a ↔ lower = some a ∧ a.index = index := by
  cases lower
  case none   => simp [require]
  case some b =>
    rw [require]
    split
    case isTrue hb  => simp; rintro rfl; exact hb
    case isFalse hb => simp; rintro rfl; exact hb

-- The arrays of a cover are those of the position's ends.
theorem of_eq_ok_iff : Cover.of p lower upper = .ok c ↔
    lower = some c.lower ∧ c.lower.index = BinArray.indexOf p.lowest ∧
    if BinArray.indexOf p.highest = BinArray.indexOf p.lowest then c.upper = none
    else ∃ a, c.upper = some a ∧ upper = some a ∧ a.index = BinArray.indexOf p.highest := by
  obtain ⟨low, high⟩ := c
  rw [of, bind_eq_ok_iff]
  simp only [require_eq_ok_iff]
  split
  case isTrue  =>
    constructor
    case mp  => rintro ⟨a, ⟨ha, hi⟩, he⟩; cases he; exact ⟨ha, hi, rfl⟩
    case mpr => rintro ⟨ha, hi, hn⟩; cases hn; exact ⟨low, ⟨ha, hi⟩, rfl⟩
  case isFalse =>
    simp only [bind_eq_ok_iff, require_eq_ok_iff]
    constructor
    case mp  => rintro ⟨a, ⟨ha, hi⟩, b, ⟨hb, hj⟩, he⟩; cases he; exact ⟨ha, hi, b, rfl, hb, hj⟩
    case mpr => rintro ⟨ha, hi, b, hs, hb, hj⟩; cases hs; exact ⟨low, ⟨ha, hi⟩, b, ⟨hb, hj⟩, rfl⟩

theorem supplied_of_of (hc : Cover.of p lower upper = .ok c) :
    lower = some c.lower ∧ ∀ a ∈ c.upper, upper = some a := by
  have ⟨hl, _, hu⟩ := of_eq_ok_iff.mp hc
  split at hu
  case isTrue  => exact ⟨hl, by simp [hu]⟩
  case isFalse =>
    obtain ⟨a, ha, hs, _⟩ := hu
    exact ⟨hl, fun b hb => by rw [hs, ←ha, hb]⟩

-- Arrays cover a position by their indexes, whatever else they hold.
theorem exists_of_index (hc : Cover.of p lower upper = .ok c)
    (hl : lower'.map (·.index) = lower.map (·.index))
    (hu : upper'.map (·.index) = upper.map (·.index)) :
    ∃ c', Cover.of p lower' upper' = .ok c' := by
  have ⟨hlow, hi, hup⟩ := of_eq_ok_iff.mp hc
  rw [hlow, Option.map_some, Option.map_eq_some_iff] at hl
  obtain ⟨low, hlow', hi'⟩ := hl
  split at hup
  case isTrue h  => exact ⟨⟨low, none⟩, of_eq_ok_iff.mpr ⟨hlow', hi'.trans hi, by rw [if_pos h]⟩⟩
  case isFalse h =>
    obtain ⟨a, _, ha, hj⟩ := hup
    rw [ha, Option.map_some, Option.map_eq_some_iff] at hu
    obtain ⟨high, hhigh, hj'⟩ := hu
    refine ⟨⟨low, some high⟩, of_eq_ok_iff.mpr ⟨hlow', hi'.trans hi, ?_⟩⟩
    rw [if_neg h]
    exact ⟨high, rfl, hhigh, hj'.trans hj⟩

theorem array_eq_ok (h : c.array id = .ok a) :
    a.index = BinArray.indexOf id ∧ (c.lower = a ∨ c.upper = some a) := by
  unfold array at h
  simp only at h
  split at h
  case isTrue hi =>
    cases h
    exact ⟨hi, .inl rfl⟩
  case isFalse =>
    split at h
    case h_1 b hb =>
      split at h
      case isTrue hi =>
        cases h
        exact ⟨hi, .inr hb⟩
      case isFalse => contradiction
    case h_2 => contradiction

-- A position is too narrow to reach beyond the array after the one that it starts in.
theorem exists_bin (hc : Cover.of p lower upper = .ok c) (hid : id ∈ p.ids) :
    ∃ a b, c.array id = .ok a ∧ a.bin id = .ok b := by
  obtain ⟨_, hl, hu⟩ := of_eq_ok_iff.mp hc
  obtain ⟨hge, hle⟩ := Position.mem_ids.mp hid
  have hnarrow := p.narrow
  have hends : BinArray.indexOf id = BinArray.indexOf p.lowest ∨
      BinArray.indexOf id ≠ BinArray.indexOf p.lowest ∧
        BinArray.indexOf id = BinArray.indexOf p.highest := by
    simp only [BinArray.indexOf]
    omega
  obtain ⟨a, ha, hi⟩ : ∃ a, c.array id = .ok a ∧ a.index = BinArray.indexOf id := by
    obtain he | ⟨hne, he⟩ := hends
    case inl =>
      have hi := hl.trans he.symm
      exact ⟨c.lower, if_pos hi, hi⟩
    case inr =>
      rw [if_neg (he ▸ hne)] at hu
      obtain ⟨a, ha, _, hj⟩ := hu
      have hi := hj.trans he.symm
      have hne : c.lower.index ≠ BinArray.indexOf id := hl ▸ hne.symm
      refine ⟨a, ?_, hi⟩
      simp only [array, if_neg hne, ha, if_pos hi]
  exact ⟨a, _, ha, BinArray.bin_ok (BinArray.holds_iff.mpr hi.symm)⟩

end Cover

namespace Position

theorem exists_entry {α : Type} {xs : List α} {offset : Int} (h₀ : 0 ≤ offset)
    (hl : offset < xs.length) : ∃ x ∈ xs, entry xs offset = .ok x := by
  have hi : offset.toNat < xs.length := by omega
  refine ⟨xs[offset.toNat], List.getElem_mem hi, ?_⟩
  simp only [entry, if_neg (Int.not_lt.mpr h₀), List.getElem?_eq_getElem hi]

section Entries

variable (hid : id ∈ p.ids)
include hid

theorem offset_within : 0 ≤ id - p.lowest ∧ id - p.lowest ≤ p.highest - p.lowest := by
  rw [mem_ids] at hid
  omega

theorem exists_share : ∃ n, p.share id = .ok n := by
  have ⟨h₀, hl⟩ := offset_within hid
  have ⟨n, _, hn⟩ := exists_entry h₀ (Int.lt_of_le_of_lt hl p.shares_le)
  exact ⟨n, hn⟩

theorem mem_shares {n : Int} (hn : p.share id = .ok n) : n ∈ p.shares := by
  have ⟨h₀, hl⟩ := offset_within hid
  have ⟨n', hm, hn'⟩ := exists_entry h₀ (Int.lt_of_le_of_lt hl p.shares_le)
  cases hn.symm.trans hn'
  exact hm

theorem exists_feeCheckpoint : ∃ f, p.feeCheckpoint id = .ok f := by
  have ⟨h₀, hl⟩ := offset_within hid
  rw [feeCheckpoint]
  obtain hn | hf := p.fees_le
  case inl => exact ⟨{}, if_pos (List.isEmpty_iff.mpr hn)⟩
  case inr =>
    have ⟨f, _, hf⟩ := exists_entry h₀ (Int.lt_of_le_of_lt hl hf)
    split
    case isTrue  => exact ⟨{}, rfl⟩
    case isFalse => exact ⟨f, hf⟩

-- A position without reward checkpoints was never credited.
theorem exists_rewardCheckpoint : ∃ c, p.rewardCheckpoint id = .ok c ∧ (c = {} ∨ c ∈ p.rewards) := by
  have ⟨h₀, hl⟩ := offset_within hid
  rw [rewardCheckpoint]
  obtain hn | hr := p.rewards_le
  case inl => exact ⟨{}, if_pos (List.isEmpty_iff.mpr hn), .inl rfl⟩
  case inr =>
    have ⟨c, hm, hc⟩ := exists_entry h₀ (Int.lt_of_le_of_lt hl hr)
    split
    case isTrue  => exact ⟨{}, rfl, .inl rfl⟩
    case isFalse => exact ⟨c, hc, .inr hm⟩

end Entries

-- What a position keeps about a bin, together with the bin as its array has it.
structure Holds (p : Position) (a : BinArray) (h : HeldBin) : Prop where
  bin     : a.bin h.id = .ok h.bin
  scale   : h.scale = a.scale
  share   : p.share h.id = .ok h.share
  fees    : p.feeCheckpoint h.id = .ok h.fees
  rewards : p.rewardCheckpoint h.id = .ok h.rewards

theorem held_eq_ok_iff : p.held c id = .ok h ↔
    h.id = id ∧ ∃ a, c.array id = .ok a ∧ p.Holds a h := by
  unfold held
  simp only [bind_eq_ok_iff]
  constructor
  case mp =>
    rintro ⟨a, ha, b, hb, n, hn, f, hf, r, hr, he⟩
    cases he
    exact ⟨rfl, a, ha, hb, rfl, hn, hf, hr⟩
  case mpr =>
    obtain ⟨i, b, s, n, f, r⟩ := h
    rintro ⟨rfl, a, ha, hb, rfl, hn, hf, hr⟩
    exact ⟨a, ha, b, hb, n, hn, f, hf, r, hr, rfl⟩

-- Nothing but the array is needed to find a bin of a position.
theorem exists_held {b : Bin} (hid : id ∈ p.ids) (ha : c.array id = .ok a)
    (hb : a.bin id = .ok b) : ∃ h, p.held c id = .ok h := by
  have ⟨n, hn⟩ := exists_share hid
  have ⟨f, hf⟩ := exists_feeCheckpoint hid
  have ⟨r, hr, _⟩ := exists_rewardCheckpoint hid
  exact ⟨⟨id, b, a.scale, n, f, r⟩, held_eq_ok_iff.mpr ⟨rfl, a, ha, hb, rfl, hn, hf, hr⟩⟩

-- Arrays that cover a position have all of its bins.
theorem exists_held_of_cover (hc : Cover.of p lower upper = .ok c) (hid : id ∈ p.ids) :
    ∃ h, p.held c id = .ok h :=
  have ⟨_, _, ha, hb⟩ := Cover.exists_bin hc hid
  exists_held hid ha hb

theorem exists_heldBins (hc : Cover.of p lower upper = .ok c) :
    ∃ held, p.heldBins lower upper = .ok held :=
  have ⟨held, hh⟩ := exists_mapM fun _ hid => exists_held_of_cover hc hid
  ⟨held, bind_eq_ok_iff.mpr ⟨c, hc, hh⟩⟩

theorem held_of_mem_heldBins (hc : Cover.of p lower upper = .ok c)
    (hb : p.heldBins lower upper = .ok held) (hh : h ∈ held) :
    h.id ∈ p.ids ∧ p.held c h.id = .ok h := by
  have ⟨_, hc', hm⟩ := bind_eq_ok_iff.mp hb
  cases hc.symm.trans hc'
  have ⟨id, hid, hheld⟩ := exists_of_mem_forall₂ (mapM_eq_ok_iff.mp hm) hh
  obtain rfl := (held_eq_ok_iff.mp hheld).left
  exact ⟨hid, hheld⟩

-- Each bin of a position is in an array that was supplied for it.
theorem holds_of_mem_heldBins (hb : p.heldBins lower upper = .ok held) (hh : h ∈ held) :
    h.id ∈ p.ids ∧ ∃ a, a.index = BinArray.indexOf h.id ∧ (lower = some a ∨ upper = some a) ∧
      p.Holds a h := by
  have ⟨c, hc, _⟩ := bind_eq_ok_iff.mp hb
  have ⟨hid, hheld⟩ := held_of_mem_heldBins hc hb hh
  have ⟨_, a, ha, hholds⟩ := held_eq_ok_iff.mp hheld
  have ⟨hl, hu⟩ := Cover.supplied_of_of hc
  have ⟨hi, hs⟩ := Cover.array_eq_ok ha
  refine ⟨hid, a, hi, ?_, hholds⟩
  cases hs
  case inl hs => exact .inl (hs ▸ hl)
  case inr hs => exact .inr (hu a hs)

end Position

-- A pool that pays a reward to the bin 5, an array that keeps three shares of that bin on the large
-- scale, and two positions that have one share of it and two shares.
def paying : Pool where
  binStep     := 25
  activeId    := 5
  fees        := { baseFactor := 10000 }
  volatility  := {}
  rewards     := ⟨{ mint := "mint", rate := 553402322211286548480, endsAt := 100, updatedAt := 50 }, {}⟩
  accounts    := {}
  words       := Vector.replicate 16 0
  key         := none
  binStep_pos := by decide

def shared : Bin :=
  { amountX := 10, amountY := 7, supply := 55340232221128654848, rewardsPerShare := [1000, 0] }

def threeShares : BinArray where
  index := 0
  bins  := (Vector.replicate 70 {}).setIfInBounds 5 shared
  scale := .large

theorem bin_threeShares : threeShares.bin 5 = .ok shared := by
  decide +kernel

def oneShare : Position where
  version    := .v1
  lowest     := 5
  highest    := 5
  shares     := [1]
  rewards    := [{ completes := [1000, 0] }]
  ordered    := by decide
  narrow     := by decide
  shares_le  := by decide
  fees_le    := by decide
  rewards_le := by decide

def twoShares : Position where
  version    := .v2
  lowest     := 5
  highest    := 5
  shares     := [36893488147419103232]
  rewards    := [{ completes := [1000, 0] }]
  ordered    := by decide
  narrow     := by decide
  shares_le  := by decide
  fees_le    := by decide
  rewards_le := by decide

end BinMarket
