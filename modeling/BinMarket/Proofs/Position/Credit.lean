import BinMarket.Proofs.Bins
import BinMarket.Proofs.Position.Held
import BinMarket.Proofs.Rounding
import BinMarket.Proofs.Sums

/-!
Crediting a position. What its bins have earned joins what is pending, and the checkpoints move up
to what is stored. A position that is credited on the way claims what it would have claimed without,
except that each bin's earnings are rounded down twice, which may cost it a unit.
-/

namespace BinMarket

open FixedPoint

variable {p : Position} {c c' : Cover} {lower upper lower' upper' : Option BinArray} {h : HeldBin}
  {held : List HeldBin} {v : PositionVersion} {t : Token} {id : Int}

def Bin.feePerShare (b : Bin) : Token → Int
  | .x => b.feeXPerShare
  | .y => b.feeYPerShare

def Position.SwapFees.of (f : SwapFees) : Token → Int
  | .x => f.x
  | .y => f.y

namespace FeeCheckpoint

def complete (k : FeeCheckpoint) : Token → Int
  | .x => k.xComplete
  | .y => k.yComplete

def pending (k : FeeCheckpoint) : Token → Int
  | .x => k.xPending
  | .y => k.yPending

-- A checkpoint that has caught up with what a bin has earned for a share.
def credited (k : FeeCheckpoint) (b : Bin) (share : Int) : FeeCheckpoint where
  xComplete := b.feeXPerShare
  yComplete := b.feeYPerShare
  xPending  := k.xPending + (share * (b.feeXPerShare - k.xComplete)) >>> places
  yPending  := k.yPending + (share * (b.feeYPerShare - k.yComplete)) >>> places

end FeeCheckpoint

namespace Position

-- The checkpoint of a bin after crediting it by the arrays at hand.
def creditIn (p : Position) (c : Cover) (id : Int) : FeeCheckpoint :=
  match p.held c id with
  | .ok h => h.fees.credited h.bin (p.version.accrualShare h.share)
  | .error _ => {}

theorem length_ids (p : Position) : (p.ids.length : Int) = p.width := by
  have h := p.ordered
  rw [ids, binsFrom, List.length_map, List.length_range, width]
  omega

-- A position with each of its bins credited. What it keeps beyond its bins stays.
def credited (p : Position) (c : Cover) : Position :=
  { p with
    fees := p.ids.map (p.creditIn c) ++ p.fees.drop p.ids.length
    fees_le := .inr <| by
      have h := p.length_ids
      rw [List.length_append, List.length_map, width] at *
      omega }

theorem getElem?_ids (hid : id ∈ p.ids) : p.ids[(id - p.lowest).toNat]? = some id := by
  have ⟨h₀, hle⟩ := offset_within hid
  have hi : p.lowest + ((id - p.lowest).toNat : Int) = id := by omega
  rw [ids, binsFrom, List.getElem?_map, List.getElem?_range (by omega), Option.map_some, hi]

theorem feeCheckpoint_credited (hid : id ∈ p.ids) :
    (p.credited c).feeCheckpoint id = .ok (p.creditIn c id) := by
  have ⟨h₀, _⟩ := offset_within hid
  have hi := getElem?_ids hid
  have hlt := (List.getElem?_eq_some_iff.mp hi).choose
  have hsome : (p.credited c).fees[(id - p.lowest).toNat]? = some (p.creditIn c id) := by
    rw [credited, List.getElem?_append_left (by rwa [List.length_map]), List.getElem?_map, hi]
    rfl
  have hne : ¬(p.credited c).fees.isEmpty := by
    rw [List.isEmpty_iff]
    intro hn
    simp [hn] at hsome
  rw [feeCheckpoint, if_neg hne]
  change entry (p.credited c).fees (id - p.lowest) = _
  simp only [entry, if_neg (not_lt.mpr h₀), hsome]

-- Crediting a position changes its fee checkpoints and nothing else.
theorem held_credited (hid : id ∈ p.ids) :
    (p.credited c).held c' id =
      (p.held c' id).map fun h => { h with fees := p.creditIn c h.id } := by
  have hheld (q : Position) : q.held c' id = do
      let array ← c'.array id
      let bin ← array.bin id
      let share ← q.share id
      let fees ← q.feeCheckpoint id
      let rewards ← q.rewardCheckpoint id
      return { id, bin, scale := array.scale, share, fees, rewards } := rfl
  have ⟨f, hf⟩ := exists_feeCheckpoint hid
  rw [hheld, hheld, feeCheckpoint_credited hid, hf]
  simp only [map_bind_eq]
  rfl

theorem heldBins_credited : (p.credited c).heldBins lower upper =
    (p.heldBins lower upper).map (·.map fun h => { h with fees := p.creditIn c h.id }) := by
  rw [heldBins, heldBins, map_bind_eq]
  refine congrArg (Cover.of p lower upper >>= ·) (funext fun _ => ?_)
  exact mapM_eq_map_of_mem fun id hid => held_credited hid

theorem creditIn_of_held (hh : p.held c id = .ok h) :
    p.creditIn c id = h.fees.credited h.bin (p.version.accrualShare h.share) := by
  rw [creditIn, hh]

theorem feesIn_of (v : PositionVersion) (h : HeldBin) (t : Token) : (feesIn v h).of t =
    earned (v.accrualShare h.share) (h.bin.feePerShare t) (h.fees.complete t)
      (h.fees.pending t) := by
  cases t <;> rfl

theorem claimableFees_of_heldBins (hh : p.heldBins lower upper = .ok held) :
    ∃ fees, p.claimableFees lower upper = .ok fees ∧
      ∀ t, fees.of t = (held.map fun h => (feesIn p.version h).of t).sum := by
  refine ⟨_, bind_eq_ok_iff.mpr ⟨held, hh, rfl⟩, fun t => ?_⟩
  cases t <;> simp [SwapFees.of, sumOf_eq_sum, Function.comp_def]

section Earned

variable (share late stored complete pending : Int)

-- Nothing is earned between two credits of the same moment.
theorem earned_credited :
    earned share stored stored (pending + (share * (stored - complete)) >>> places) =
      earned share stored complete pending := by
  simp only [earned, mulShr, sub_self, mul_zero, Int.zero_shiftRight, zero_add]
  exact add_comm ..

theorem earned_credited_later :
    let credited := earned share late stored (pending + (share * (stored - complete)) >>> places)
    earned share late complete pending - 1 ≤ credited ∧
      credited ≤ earned share late complete pending := by
  have hsplit : share * (late - complete) =
      share * (late - stored) + share * (stored - complete) := by
    rw [←mul_add, sub_add_sub_cancel]
  simp only [earned, mulShr, shiftRight_eq, twoTo_places, unit, hsplit]
  omega

end Earned

-- What a bin is entitled to after a credit, and what without.
theorem feesIn_credited (hc : Cover.of p lower upper = .ok c) (hid : h.id ∈ p.ids)
    (hh : p.held c' h.id = .ok h) (t : Token) :
    let credited := feesIn p.version { h with fees := p.creditIn c h.id }
    (feesIn p.version h).of t - 1 ≤ credited.of t ∧ credited.of t ≤ (feesIn p.version h).of t := by
  have ⟨h₀, hh₀⟩ := exists_held_of_cover hc hid
  have ⟨_, _, _, hold⟩ := held_eq_ok_iff.mp hh
  have ⟨hid₀, _, _, hold₀⟩ := held_eq_ok_iff.mp hh₀
  have hshare : h₀.share = h.share := Except.ok.inj (hold₀.share.symm.trans (hid₀ ▸ hold.share))
  have hfees : h₀.fees = h.fees := Except.ok.inj (hold₀.fees.symm.trans (hid₀ ▸ hold.fees))
  simp only [feesIn_of, creditIn_of_held hh₀, hshare, hfees]
  cases t <;> exact earned_credited_later ..

theorem SwapFees.ext_of {f g : SwapFees} (h : ∀ t, f.of t = g.of t) : f = g := by
  cases f
  cases g
  exact SwapFees.mk.injEq .. ▸ ⟨h .x, h .y⟩

-- Both claims, with a credit and without, are sums over the same bins.
theorem exists_claimableFees_credited (c : Cover) (hc' : Cover.of p lower upper = .ok c') :
    ∃ (held : List HeldBin) (whole parts : SwapFees), p.claimableFees lower upper = .ok whole ∧
      (p.credited c).claimableFees lower upper = .ok parts ∧
      (held.length : Int) = p.width ∧ (∀ h ∈ held, h.id ∈ p.ids ∧ p.held c' h.id = .ok h) ∧
      ∀ t, whole.of t = (held.map fun h => (feesIn p.version h).of t).sum ∧
        parts.of t = (held.map fun h =>
          (feesIn p.version { h with fees := p.creditIn c h.id }).of t).sum := by
  have ⟨held, hheld⟩ := exists_heldBins hc'
  have hids : p.ids.mapM (p.held c') = .ok held := by
    have ⟨_, hcover, hids⟩ := bind_eq_ok_iff.mp hheld
    exact Except.ok.inj (hc'.symm.trans hcover) ▸ hids
  have hcredited : (p.credited c).heldBins lower upper = .ok _ :=
    heldBins_credited.trans (congrArg (Except.map _) hheld)
  have ⟨whole, hwhole, hsum⟩ := claimableFees_of_heldBins hheld
  have ⟨parts, hparts, hsum'⟩ := claimableFees_of_heldBins hcredited
  refine ⟨held, whole, parts, hwhole, hparts, ?_, fun _ => held_of_mem_heldBins hc' hheld,
    fun t => ⟨hsum t, (hsum' t).trans (congrArg List.sum (List.map_map ..))⟩⟩
  rw [←(mapM_eq_ok_iff.mp hids).length_eq, length_ids]

-- The moment a position is credited its claim stays as it is. Whatever its bins have earned later
-- on, the credit adds nothing to the claim and takes at most a unit for each bin.
-- Later arrays may differ from those at hand in anything but their indexes.
theorem claimableFees_credited (hc : Cover.of p lower upper = .ok c)
    (hl : lower'.map (·.index) = lower.map (·.index))
    (hu : upper'.map (·.index) = upper.map (·.index)) :
    (∃ fees, p.claimableFees lower upper = .ok fees ∧
      (p.credited c).claimableFees lower upper = .ok fees) ∧
    ∃ whole parts, p.claimableFees lower' upper' = .ok whole ∧
      (p.credited c).claimableFees lower' upper' = .ok parts ∧
      ∀ t, whole.of t - p.width ≤ parts.of t ∧ parts.of t ≤ whole.of t := by
  constructor
  case left =>
    have ⟨held, whole, parts, hwhole, hparts, _, hheld, hsum⟩ := exists_claimableFees_credited c hc
    suffices whole = parts from ⟨whole, hwhole, this ▸ hparts⟩
    refine SwapFees.ext_of fun t => ?_
    rw [(hsum t).left, (hsum t).right]
    refine congrArg List.sum (List.map_congr_left fun h hm => ?_)
    rw [feesIn_of, feesIn_of, creditIn_of_held (hheld h hm).right]
    cases t <;> exact (earned_credited ..).symm
  case right =>
    have ⟨c', hc'⟩ := Cover.exists_of_index hc hl hu
    have ⟨held, whole, parts, hwhole, hparts, hlength, hheld, hsum⟩ :=
      exists_claimableFees_credited c hc'
    refine ⟨whole, parts, hwhole, hparts, fun t => ?_⟩
    have hbin (h : HeldBin) (hm : h ∈ held) :=
      feesIn_credited hc (hheld h hm).left (hheld h hm).right t
    rw [(hsum t).left, (hsum t).right, sub_le_iff_le_add]
    refine ⟨?_, List.sum_le_sum fun h hm => (hbin h hm).right⟩
    calc (held.map fun h => (feesIn p.version h).of t).sum
      _ ≤ (held.map fun h =>
            (feesIn p.version { h with fees := p.creditIn c h.id }).of t + 1).sum :=
        List.sum_le_sum fun h hm => sub_le_iff_le_add.mp (hbin h hm).left
      _ = (held.map fun h =>
            (feesIn p.version { h with fees := p.creditIn c h.id }).of t).sum + p.width := by
        rw [List.sum_map_add, List.map_const', List.sum_replicate, nsmul_one, ←hlength]

-- Arrays whose bins have all earned the same, and a position that reaches from one to the next.
def earning (index perShare : Int) : BinArray where
  index
  bins  := Vector.replicate 70 { feeXPerShare := perShare, feeYPerShare := 2 * perShare }
  scale := .large

def straddling : Position where
  version    := .v2
  lowest     := 69
  highest    := 70
  shares     := [18446744073709551616, 55340232221128654848]
  fees       := [{ xPending := 5 }, { yComplete := 27670116110564327424 }]
  ordered    := by decide
  narrow     := by decide
  shares_le  := by decide
  fees_le    := by decide
  rewards_le := by decide

-- Each of the two bins loses a unit of token X when it is credited halfway.
theorem claimableFees_credited_straddling :
    let half := 9223372036854775808
    let credited := straddling.credited ⟨earning 0 half, some (earning 1 half)⟩
    straddling.claimableFees (some (earning 0 half)) (some (earning 1 half)) = .ok ⟨6, -1⟩ ∧
    credited.claimableFees (some (earning 0 half)) (some (earning 1 half)) = .ok ⟨6, -1⟩ ∧
    ∃ whole parts,
      straddling.claimableFees (some (earning 0 unit)) (some (earning 1 unit)) = .ok whole ∧
      credited.claimableFees (some (earning 0 unit)) (some (earning 1 unit)) = .ok parts ∧
      whole = ⟨9, 3⟩ ∧ parts = ⟨7, 3⟩ ∧
      ∀ t, whole.of t - straddling.width ≤ parts.of t ∧ parts.of t ≤ whole.of t := by
  intro half credited
  have hc : Cover.of straddling (some (earning 0 half)) (some (earning 1 half)) =
      .ok ⟨earning 0 half, some (earning 1 half)⟩ := rfl
  have hl : (some (earning 0 unit)).map (·.index) = (some (earning 0 half)).map (·.index) := rfl
  have hu : (some (earning 1 unit)).map (·.index) = (some (earning 1 half)).map (·.index) := rfl
  have ⟨⟨fees, hfees, hcredited⟩, whole, parts, hwhole, hparts, hle⟩ :=
    claimableFees_credited hc hl hu
  have hfees' : straddling.claimableFees (some (earning 0 half)) (some (earning 1 half)) =
      .ok ⟨6, -1⟩ := by
    decide +kernel
  have hwhole' : straddling.claimableFees (some (earning 0 unit)) (some (earning 1 unit)) =
      .ok ⟨9, 3⟩ := by
    decide +kernel
  have hparts' : credited.claimableFees (some (earning 0 unit)) (some (earning 1 unit)) =
      .ok ⟨7, 3⟩ := by
    decide +kernel
  cases hfees.symm.trans hfees'
  exact ⟨hfees, hcredited, whole, parts, hwhole, hparts, Except.ok.inj (hwhole.symm.trans hwhole'),
    Except.ok.inj (hparts.symm.trans hparts'), hle⟩

end Position

end BinMarket
