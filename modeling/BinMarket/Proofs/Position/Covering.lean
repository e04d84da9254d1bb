import BinMarket.Proofs.Position.Credit
import BinMarket.Proofs.Position.Growth
import BinMarket.Proofs.Position.Holdings
import BinMarket.Proofs.Position.Listing

/-!
The arrays that a position needs. Without one of them a caller is told which; with them each bin of
the position is found, and the position lists the same bins as a look at its range does.
-/

namespace BinMarket

variable {p : Position} {c : Cover} {lower upper : Option BinArray} {a : BinArray} {h : HeldBin}
  {held : List HeldBin} {r : Holdings} {pool : Pool} {now index id step decimalsX decimalsY : Int}

namespace Position

-- The index of the array that a position needs and was not given, the lower one first. The upper one
-- is needed when the position reaches into it.
def lacking? (p : Position) (lower upper : Option BinArray) : Option Int :=
  let low := BinArray.indexOf p.lowest
  let high := BinArray.indexOf p.highest
  if lower.map (·.index) ≠ some low then some low
  else if high ≠ low ∧ upper.map (·.index) ≠ some high then some high
  else none

-- The arrays among those given that a position needs.
def covering (p : Position) (lower upper : Option BinArray) : List BinArray :=
  if BinArray.indexOf p.highest = BinArray.indexOf p.lowest then lower.toList
  else lower.toList ++ upper.toList

theorem lacking?_eq_none_iff : p.lacking? lower upper = none ↔
    lower.map (·.index) = some (BinArray.indexOf p.lowest) ∧
      (BinArray.indexOf p.highest ≠ BinArray.indexOf p.lowest →
        upper.map (·.index) = some (BinArray.indexOf p.highest)) := by
  by_cases hl : lower.map (·.index) = some (BinArray.indexOf p.lowest)
  case neg =>
    rw [lacking?, if_pos hl]
    exact ⟨fun h => absurd h (Option.some_ne_none _), fun h => absurd h.left hl⟩
  case pos =>
    rw [lacking?, if_neg (not_not.mpr hl)]
    split
    case isTrue hu =>
      exact ⟨fun h => absurd h (Option.some_ne_none _), fun h => absurd (h.right hu.left) hu.right⟩
    case isFalse hu =>
      exact ⟨fun _ => ⟨hl, fun hc => not_not.mp fun hn => hu ⟨hc, hn⟩⟩, fun _ => rfl⟩

end Position

namespace Cover

theorem missing?_require : missing? (require index lower) =
    if lower.map (·.index) = some index then none else some (naming index) := by
  cases lower
  case none   => exact missing?_arrayNotFound index
  case some a =>
    rw [require, Option.map_some]
    simp only [Option.some_inj]
    split
    case isTrue  => rfl
    case isFalse => exact missing?_arrayMismatch ..

theorem exists_of (h : p.lacking? lower upper = none) : ∃ c, Cover.of p lower upper = .ok c := by
  have ⟨hl, hu⟩ := Position.lacking?_eq_none_iff.mp h
  have ⟨low, hlow, hi⟩ := Option.map_eq_some_iff.mp hl
  by_cases hc : BinArray.indexOf p.highest = BinArray.indexOf p.lowest
  case pos => exact ⟨⟨low, none⟩, of_eq_ok_iff.mpr ⟨hlow, hi, by rw [if_pos hc]⟩⟩
  case neg =>
    have ⟨high, hhigh, hj⟩ := Option.map_eq_some_iff.mp (hu hc)
    refine ⟨⟨low, some high⟩, of_eq_ok_iff.mpr ⟨hlow, hi, ?_⟩⟩
    rw [if_neg hc]
    exact ⟨high, rfl, hhigh, hj⟩

-- What is told depends on the indexes of the arrays and on nothing else.
theorem missing?_of : missing? (Cover.of p lower upper) = (p.lacking? lower upper).map naming := by
  by_cases hl : lower.map (·.index) = some (BinArray.indexOf p.lowest)
  case neg =>
    rw [of, Position.lacking?, if_pos hl, missing?_bind, missing?_require, if_neg hl]
    · rfl
    · intro a ha
      obtain ⟨rfl, hi⟩ := require_eq_ok_iff.mp ha
      exact absurd (congrArg some hi) hl
  case pos =>
    by_cases hu : BinArray.indexOf p.highest ≠ BinArray.indexOf p.lowest ∧
        upper.map (·.index) ≠ some (BinArray.indexOf p.highest)
    case pos =>
      obtain ⟨low, hlow⟩ := Option.map_eq_some_iff.mp hl
      rw [of, require_eq_ok_iff.mpr hlow, Position.lacking?, if_neg (not_not.mpr hl), if_pos hu]
      change missing? (if BinArray.indexOf p.highest = BinArray.indexOf p.lowest then _ else _) = _
      rw [if_neg hu.left, missing?_bind fun _ _ => rfl, missing?_require, if_neg hu.right]
      rfl
    case neg =>
      have hnone := Position.lacking?_eq_none_iff.mpr
        ⟨hl, fun hc => not_not.mp fun hn => hu ⟨hc, hn⟩⟩
      obtain ⟨c, hc⟩ := exists_of hnone
      rw [hc, hnone]
      rfl

-- The array in which a bin of the position is found is the only one with its index among those that
-- the position needs.
theorem find?_covering (hc : Cover.of p lower upper = .ok c) (ha : c.array id = .ok a) :
    BinArray.find? (p.covering lower upper) (BinArray.indexOf id) = some a := by
  have ⟨hl, hi, hu⟩ := of_eq_ok_iff.mp hc
  have ⟨hid, hor⟩ := array_eq_ok ha
  rw [Position.covering, hl]
  split at hu
  case isTrue hsame =>
    rw [if_pos hsame]
    rw [hu] at hor
    obtain rfl := hor.resolve_right nofun
    simp [BinArray.find?, hid]
  case isFalse hcross =>
    obtain ⟨high, hhigh, hsup, hj⟩ := hu
    rw [if_neg hcross, hsup]
    rw [hhigh, Option.some_inj] at hor
    cases hor
    case inl he =>
      subst he
      have hne : high.index ≠ BinArray.indexOf id := by rw [←hid, hi, hj]; exact hcross
      simp [BinArray.find?, hid, hne]
    case inr he =>
      subst he
      simp [BinArray.find?, hid]

end Cover

def Holding.reserves (x : Holding) : Reserves :=
  ⟨x.id, x.price, x.pricePerToken, x.reserveX, x.reserveY, x.supply⟩

namespace Position

theorem missing?_heldBins :
    missing? (p.heldBins lower upper) = (p.lacking? lower upper).map naming := by
  rw [heldBins, missing?_bind, Cover.missing?_of]
  intro c hc
  obtain ⟨held, hheld⟩ := exists_mapM fun _ hid => exists_held_of_cover hc hid
  rw [hheld]
  rfl

theorem missing?_claimableFees :
    missing? (p.claimableFees lower upper) = missing? (p.heldBins lower upper) :=
  missing?_bind fun _ _ => rfl

theorem missing?_entry (s : Slot) (entries : List Int) : missing? (s.entry entries) = none := by
  unfold Slot.entry
  split <;> rfl

theorem missing?_rewardIn (pool : Pool) (v : PositionVersion) (now : Int) (s : Slot)
    (h : HeldBin) : missing? (rewardIn pool v now s h) = none := by
  unfold rewardIn
  split
  case isTrue  => rfl
  case isFalse =>
    rw [missing?_bind, missing?_entry]
    intro _ _
    rw [missing?_bind, missing?_entry]
    intro _ _
    rw [missing?_bind fun _ _ => rfl, missing?_entry]

theorem missing?_claimableRewards : missing? (p.claimableRewards pool now lower upper) =
    missing? (p.heldBins lower upper) := by
  refine missing?_bind fun held _ => ?_
  rw [missing?_bind, missing?_mapM fun h _ => missing?_rewardIn ..]
  intro _ _
  rw [missing?_bind fun _ _ => rfl, missing?_mapM fun h _ => missing?_rewardIn ..]

theorem map_reserves_holdingIn (v : PositionVersion) (h : HeldBin) :
    (holdingIn step decimalsX decimalsY v h).map (·.reserves) =
      (Price.inBoth step decimalsX decimalsY h.id).map (Reserves.of h.id h.bin) := by
  rw [holdingIn, Price.inBoth, map_bind_eq, map_bind_eq]
  refine congrArg (Price.ofBin step h.id >>= ·) (funext fun price => ?_)
  rw [map_bind_eq, map_bind_eq]
  rfl

theorem missing?_holdingIn (v : PositionVersion) (h : HeldBin) :
    missing? (holdingIn step decimalsX decimalsY v h) = none := by
  rw [holdingIn, missing?_bind, Price.missing?_ofBin]
  intro _ _
  rw [missing?_bind fun _ _ => rfl, Price.missing?_perToken]

theorem missing?_holdings : missing? (p.holdings pool now lower upper decimalsX decimalsY) =
    missing? (p.heldBins lower upper) := by
  refine missing?_bind fun held hheld => ?_
  have hfees : missing? (p.claimableFees lower upper) = none := by
    rw [missing?_claimableFees, hheld]
    rfl
  have hrewards : missing? (p.claimableRewards pool now lower upper) = none := by
    rw [missing?_claimableRewards, hheld]
    rfl
  rw [missing?_bind, missing?_mapM]
  · intro h _
    rw [missing?_holdingIn]
  · intro _ _
    rw [missing?_bind, hfees]
    intro _ _
    rw [missing?_bind fun _ _ => rfl, hrewards]

-- The bins of a position that are found are all of its bins in order.
theorem map_id_heldBins (hh : p.heldBins lower upper = .ok held) :
    held.map (·.id) = p.ids := by
  have ⟨c, _, hids⟩ := bind_eq_ok_iff.mp hh
  have hsame := (mapM_eq_ok_iff.mp hids).imp fun _ _ h => (held_eq_ok_iff.mp h).left
  rw [←List.forall₂_eq_eq_eq, List.forall₂_map_left_iff]
  exact hsame.flip

-- What a position lists of its bins themselves is what a look at its range lists.
theorem mapM_holdingIn_reserves (hc : Cover.of p lower upper = .ok c)
    (hh : p.heldBins lower upper = .ok held) :
    (held.mapM (holdingIn pool.binStep decimalsX decimalsY p.version)).map (·.map (·.reserves)) =
      (pool.binsBetween p.lowest p.highest (p.covering lower upper) decimalsX decimalsY).map
        (·.map (·.reserves)) := by
  let listed (id : Int) :=
    BinLiquidity.of pool.binStep decimalsX decimalsY (p.covering lower upper) id
  have hbin (h : HeldBin) (hm : h ∈ held) : (listed h.id).map (·.reserves) =
      (holdingIn pool.binStep decimalsX decimalsY p.version h).map (·.reserves) := by
    have ⟨_, hheld⟩ := held_of_mem_heldBins hc hh hm
    have ⟨_, a, ha, hholds⟩ := held_eq_ok_iff.mp hheld
    rw [map_reserves_holdingIn]
    exact BinLiquidity.map_reserves_of (Cover.find?_covering hc ha) hholds.bin
  rw [Pool.binsBetween_eq_mapM p.ordered]
  calc (held.mapM (holdingIn pool.binStep decimalsX decimalsY p.version)).map (·.map (·.reserves))
    _ = held.mapM fun h => (listed h.id).map (·.reserves)          := (mapM_eq_map_of_mem hbin).symm
    _ = p.ids.mapM fun id => (listed id).map (·.reserves)          := by
      rw [←map_id_heldBins hh, List.mapM_map]
      rfl
    _ = (p.ids.mapM listed).map (·.map (·.reserves))               := mapM_eq_map (fun _ => rfl) _

theorem map_id_holdings (hr : p.holdings pool now lower upper decimalsX decimalsY = .ok r) :
    r.bins.map (·.id) = p.ids := by
  have ⟨held, hh, hbins, _⟩ := holdings_eq_ok hr
  have hsame := (mapM_eq_ok_iff.mp hbins).imp fun _ _ hx => (holdingIn_eq_ok hx).left
  rw [←map_id_heldBins hh, ←List.forall₂_eq_eq_eq, List.forall₂_map_left_iff,
    List.forall₂_map_right_iff]
  exact hsame.flip

section Covered

variable (hc : Cover.of p lower upper = .ok c) (hh : p.heldBins lower upper = .ok held)
  (hfull : ∀ k ∈ p.rewards, k.Full)
  (h₂ : ∀ a ∈ p.covering lower upper, ∀ b ∈ a.bins, 2 ≤ b.rewardsPerShare.length)
include hc hh hfull h₂

theorem exists_claimableRewards_of_covering (pool : Pool) (now : Int) :
    ∃ rewards, p.claimableRewards pool now lower upper = .ok rewards := by
  refine exists_claimableRewards pool now hh (fun h hm => ?_) fun h hm => ?_
  · have ⟨_, hheld⟩ := held_of_mem_heldBins hc hh hm
    have ⟨_, a, ha, hholds⟩ := held_eq_ok_iff.mp hheld
    exact BinArray.forall_bin (P := (2 ≤ ·.rewardsPerShare.length)) h₂
      (Cover.find?_covering hc ha) hholds.bin
  · have ⟨hid, hheld⟩ := held_of_mem_heldBins hc hh hm
    exact full_of_held hfull hid hheld

-- Once the bins are found, only a price can be in the way of a position's holdings.
theorem map_reserves_holdings :
    (p.holdings pool now lower upper decimalsX decimalsY).map (·.bins.map (·.reserves)) =
      (pool.binsBetween p.lowest p.highest (p.covering lower upper) decimalsX decimalsY).map
        (·.map (·.reserves)) := by
  have ⟨fees, hfees, _⟩ := claimableFees_of_heldBins hh
  have ⟨rewards, hrewards⟩ := exists_claimableRewards_of_covering hc hh hfull h₂ pool now
  rw [←mapM_holdingIn_reserves hc hh, holdings, hh, hfees, hrewards]
  change Except.map _ (held.mapM _ >>= _) = _
  cases held.mapM (holdingIn pool.binStep decimalsX decimalsY p.version) <;> rfl

theorem exists_holdings_iff :
    (∃ r, p.holdings pool now lower upper decimalsX decimalsY = .ok r) ↔
      ∀ id ∈ p.ids, Price.Known pool.binStep decimalsX decimalsY id := by
  rw [exists_eq_ok_iff_of_map_eq (map_reserves_holdings hc hh hfull h₂),
    Pool.exists_binsBetween_iff p.ordered]
  constructor
  case mp =>
    intro hall id hid
    have ⟨hlow, hhigh⟩ := mem_ids.mp hid
    exact (hall id hlow hhigh).known
  case mpr =>
    intro hall id hlow hhigh
    have hid := mem_ids.mpr ⟨hlow, hhigh⟩
    have ⟨a, _, ha, _⟩ := Cover.exists_bin hc hid
    exact ⟨Cover.find?_covering hc ha ▸ Option.some_ne_none a, hall id hid⟩

end Covered

-- A position that does not cross into another array has no use for one.
section Inside

variable (hsame : BinArray.indexOf p.highest = BinArray.indexOf p.lowest)
  (lower upper upper' : Option BinArray)
include hsame

theorem heldBins_of_inside : p.heldBins lower upper = p.heldBins lower upper' := by
  have hcover : Cover.of p lower upper = Cover.of p lower upper' := by
    simp only [Cover.of, if_pos hsame]
  rw [heldBins, heldBins, hcover]

theorem claimableFees_of_inside : p.claimableFees lower upper = p.claimableFees lower upper' := by
  rw [claimableFees, claimableFees, heldBins_of_inside hsame lower upper upper']

theorem claimableRewards_of_inside (pool : Pool) (now : Int) :
    p.claimableRewards pool now lower upper = p.claimableRewards pool now lower upper' := by
  rw [claimableRewards, claimableRewards, heldBins_of_inside hsame lower upper upper']

theorem holdings_of_inside (pool : Pool) (now decimalsX decimalsY : Int) :
    p.holdings pool now lower upper decimalsX decimalsY =
      p.holdings pool now lower upper' decimalsX decimalsY := by
  rw [holdings, holdings, heldBins_of_inside hsame lower upper upper',
    claimableFees_of_inside hsame lower upper upper',
    claimableRewards_of_inside hsame lower upper upper']

end Inside

-- A caller is told to fetch exactly the array that a position lacks, the lower one first. A position
-- that lacks none lists its bins as a look at its range does over the arrays that it needs.
-- 1. All of its bins are found, with all that it keeps about them, and it has fees to claim
-- 2. It has rewards to claim and a list of its bins unless a record is short of an entry, in which
--    only a price can be in the way of the list
-- 3. The list is of all its bins, each once, in order
-- 4. An upper array is of no use to a position that does not cross into it
-- 5. A look at a range ends with a list when all arrays are at hand and all prices in range, and asks
--    for the array of the first bin that has none, if the bins before it can be listed
theorem holdings_over_covering (p : Position) (pool : Pool) (lower upper : Option BinArray)
    (now decimalsX decimalsY : Int) :
    let fees (upper : Option BinArray) := p.claimableFees lower upper
    let rewards (upper : Option BinArray) := p.claimableRewards pool now lower upper
    let holdings (upper : Option BinArray) :=
      p.holdings pool now lower upper decimalsX decimalsY
    let between (arrays : List BinArray) (lowest highest : Int) :=
      pool.binsBetween lowest highest arrays decimalsX decimalsY
    let told := (p.lacking? lower upper).map naming
    (missing? (fees upper) = told ∧ missing? (rewards upper) = told ∧
      missing? (holdings upper) = told) ∧
    (p.lacking? lower upper = none →
      (∃ held f, p.heldBins lower upper = .ok held ∧ held.map (·.id) = p.ids ∧
        fees upper = .ok f) ∧
      ((∀ k ∈ p.rewards, k.Full) →
        (∀ a ∈ p.covering lower upper, ∀ b ∈ a.bins, 2 ≤ b.rewardsPerShare.length) →
        (∃ r, rewards upper = .ok r) ∧
        ((∃ r, holdings upper = .ok r) ↔
          ∀ id ∈ p.ids, Price.Known pool.binStep decimalsX decimalsY id) ∧
        (holdings upper).map (·.bins.map (·.reserves)) =
          (between (p.covering lower upper) p.lowest p.highest).map (·.map (·.reserves)))) ∧
    (∀ r, holdings upper = .ok r → (r.bins.map (·.id)).Pairwise (· < ·) ∧
      ∀ id, id ∈ r.bins.map (·.id) ↔ p.lowest ≤ id ∧ id ≤ p.highest) ∧
    (BinArray.indexOf p.highest = BinArray.indexOf p.lowest → ∀ upper', fees upper' = fees upper ∧
      rewards upper' = rewards upper ∧ holdings upper' = holdings upper) ∧
    ∀ arrays lowest highest, lowest ≤ highest →
      ((∃ bins, between arrays lowest highest = .ok bins) ↔ ∀ id, lowest ≤ id → id ≤ highest →
        Listable arrays pool.binStep decimalsX decimalsY id) ∧
      ∀ details, missing? (between arrays lowest highest) = some details ↔
        ∃ id, lowest ≤ id ∧ id ≤ highest ∧ details = naming (BinArray.indexOf id) ∧
          BinArray.find? arrays (BinArray.indexOf id) = none ∧
          ∀ j, lowest ≤ j → j < id → Listable arrays pool.binStep decimalsX decimalsY j := by
  intro fees rewards holdings between told
  refine ⟨⟨?_, ?_, ?_⟩, fun hnone => ?found, fun r hr => ?listed, ?inside,
    fun arrays lowest highest h =>
      ⟨Pool.exists_binsBetween_iff h, fun _ => Pool.missing?_binsBetween_eq_some_iff h⟩⟩
  · exact missing?_claimableFees.trans missing?_heldBins
  · exact missing?_claimableRewards.trans missing?_heldBins
  · exact missing?_holdings.trans missing?_heldBins
  case found =>
    have ⟨c, hc⟩ := Cover.exists_of hnone
    have ⟨held, hh⟩ := exists_heldBins hc
    have ⟨f, hf, _⟩ := claimableFees_of_heldBins hh
    exact ⟨⟨held, f, hh, map_id_heldBins hh, hf⟩, fun hfull h₂ =>
      ⟨exists_claimableRewards_of_covering hc hh hfull h₂ pool now,
        exists_holdings_iff hc hh hfull h₂, map_reserves_holdings hc hh hfull h₂⟩⟩
  case listed =>
    rw [map_id_holdings hr]
    exact ⟨pairwise_binsFrom .., fun _ => mem_ids⟩
  case inside =>
    intro hsame upper'
    exact ⟨claimableFees_of_inside hsame .., claimableRewards_of_inside hsame ..,
      holdings_of_inside hsame ..⟩

-- A position on two bins of two arrays, with none, one and both of them.
theorem holdings_over_covering_straddling :
    let lower := earning 0 0
    let upper := earning 1 0
    missing? (straddling.claimableFees none (some upper)) = some (naming 0) ∧
    missing? (straddling.claimableRewards paying 60 (some lower) none) = some (naming 1) ∧
    missing? (straddling.holdings paying 60 (some lower) (some lower) 0 0) = some (naming 1) ∧
    missing? (paying.binsBetween 69 70 [lower] 0 0) = some (naming 1) ∧
    ∃ r bins, straddling.holdings paying 60 (some lower) (some upper) 0 0 = .ok r ∧
      paying.binsBetween 69 70 [lower, upper] 0 0 = .ok bins ∧
      r.bins.map (·.reserves) = bins.map (·.reserves) ∧ (r.bins.map (·.id)).Pairwise (· < ·) := by
  intro lower upper
  have hover (lower upper : Option BinArray) :=
    holdings_over_covering straddling paying lower upper 60 0 0
  have ⟨_, hcovered, hlisted, _, hbetween⟩ := hover (some lower) (some upper)
  have ⟨_, hmissing⟩ := hbetween [lower] 69 70 (by decide)
  have ⟨_, hpriced, hsame⟩ :=
    (hcovered (by decide)).right (List.forall_mem_nil _) (by decide +kernel)
  have ⟨r, hr⟩ := hpriced.mpr (by decide +kernel)
  have ⟨bins, hbins, he⟩ := exists_of_map_eq_ok (hsame.symm.trans (congrArg (Except.map _) hr))
  refine ⟨(hover none (some upper)).left.left, (hover (some lower) none).left.right.left,
    (hover (some lower) (some lower)).left.right.right, ?_, r, bins, hr, hbins, he.symm,
    (hlisted r hr).left⟩
  exact (hmissing _).mpr ⟨70, by decide, by decide, rfl, by decide +kernel, fun j hj hlt => by
    obtain rfl : j = 69 := by omega
    decide +kernel⟩

-- Bins at which two to the power of their ids is beyond the range of decimals.
def steep : Pool :=
  { paying with binStep := 10000, binStep_pos := by decide }

def oneSteepShare : Position :=
  { oneShare with
    lowest     := 3500069
    highest    := 3500069
    ordered    := by decide
    narrow     := by decide
    shares_le  := by decide
    fees_le    := by decide
    rewards_le := by decide }

-- Without a price for the first bin a look at a range does not come to the array that is missing. It
-- fails where no array is missing, and so does the list of a position that lacks none.
theorem binsBetween_steep :
    let array := earning 50000 0
    BinArray.find? [array] (BinArray.indexOf 3500069) = some array ∧
    BinArray.find? [array] (BinArray.indexOf 3500070) = none ∧
    steep.binsBetween 3500069 3500070 [array] 0 0 = .error (.arithmetic .overflow) ∧
    missing? (steep.binsBetween 3500069 3500070 [array] 0 0) ≠ some (naming 50001) ∧
    steep.binsBetween 3500069 3500069 [array] 0 0 = .error (.arithmetic .overflow) ∧
    oneSteepShare.lacking? (some array) none = none ∧
    (oneSteepShare.holdings steep 60 (some array) none 0 0).map (·.bins) =
      .error (.arithmetic .overflow) := by
  decide +kernel

end Position

end BinMarket
