import BinMarket.Proofs.Deposit.Shape

/-!
Shapes in proportion to weights. On each side of the active bin all bins but one get exactly what is
due to their weights, rounded down, and that one also gets what the rounding leaves over.
-/

namespace BinMarket

variable {t : Token} {active lowest highest k r : Int} {bins keys : List Int} {f w : Int → Int}
  {parts : Token → Int → Int} {s : Shape} {b : BinShare}

namespace Weights

theorem part_mono (hs : 0 ≤ (keys.map f).sum) {k k' : Int} (h : f k ≤ f k') :
    part keys f k ≤ part keys f k' := by
  rcases hs.eq_or_lt with hz | hp
  case inl => simp [part, ←hz]
  case inr => exact Int.ediv_le_ediv hp (mul_le_mul_of_nonneg_left h (by decide))

theorem shared_of_forall_eq_zero (h : ∀ k ∈ keys, f k = 0) (r k : Int) : shared keys f r k = 0 :=
  if_pos (List.sum_eq_zero (List.forall_mem_map.mpr h))

theorem shared_of_ne (hk : k ≠ r) : shared keys f r k = part keys f k := by
  by_cases hz : (keys.map f).sum = 0
  case pos => simp [shared, part, hz]
  case neg => rw [shared_eq hz, portion, if_neg hk, add_zero]

-- Nothing is left over when no bin weighs anything.
theorem shared_keeper_within (h₀ : ∀ k ∈ keys, 0 ≤ f k) (hr : r ∈ keys) :
    0 ≤ shared keys f r r - part keys f r ∧ shared keys f r r - part keys f r < keys.length := by
  have hpos : (0 : Int) < keys.length := by exact_mod_cast List.length_pos_of_mem hr
  by_cases hz : (keys.map f).sum = 0
  case pos =>
    have hp : part keys f r = 0 := by rw [part, hz, Int.ediv_zero]
    rw [shared, if_pos hz, hp]
    exact ⟨le_rfl, hpos⟩
  case neg =>
    have hs := lt_of_le_of_ne (sum_nonneg h₀) (Ne.symm hz)
    have hlt := lt_sum_parts hs (c := 10000) (by decide)
    rw [←map_part] at hlt
    have hcount := List.countP_le_length (p := (· ≠ 0)) (l := keys.map f)
    rw [List.length_map] at hcount
    have hle := sum_part_le h₀ hz
    rw [shared_eq hz, portion, if_pos rfl, add_sub_cancel_left]
    omega

end Weights

namespace Shape

-- A token goes to the bins of its side alone.
theorem sum_ofSides (t : Token) (active : Int) (hn : bins.Nodup) (parts : Token → Int → Int) :
    sumOf ((ofSides active bins parts).map (·.of t)) =
      ((t.among active bins).map (parts t)).sum := by
  have hmap : (ofSides active bins parts).map (·.of t) =
      bins.map fun k => if k ∈ t.among active bins then parts t k else 0 := by
    rw [ofSides, List.map_map]
    exact List.map_congr_left fun k hk => of_of_mem_ofSides (List.mem_map_of_mem hk) t
  have hperm : (bins.filter (· ∈ t.among active bins)).Perm (t.among active bins) := by
    rw [List.perm_ext_iff_of_nodup (hn.filter _) (t.nodup_among active hn)]
    intro k
    rw [List.mem_filter, decide_eq_true_eq, and_iff_right_iff_imp]
    exact fun hk => (Token.mem_among.mp hk).left
  have hzero : ∀ k ∈ bins, ¬decide (k ∈ t.among active bins) →
      (if k ∈ t.among active bins then parts t k else 0) = 0 :=
    fun k _ hk => if_neg fun hm => hk (decide_eq_true hm)
  rw [hmap, sumOf_eq_sum, ←sum_filter_of_zero hzero, ←(hperm.map (parts t)).sum_eq]
  refine congrArg _ (List.map_congr_left fun k hk => if_pos ?_)
  exact of_decide_eq_true (List.mem_filter.mp hk).right

-- What a shape owes to the weights of the bins on one side. The token of the side goes to no other
-- bins, and what rounding leaves over of it goes to one of them.
structure Proportional (s : Shape) (t : Token) (keys : List Int) (w : Int → Int) (r : Int) :
    Prop where
  nonneg    : ∀ b ∈ s, 0 ≤ b.of t
  elsewhere : ∀ b ∈ s, b.bin ∉ keys → b.of t = 0
  whole     : (∃ k ∈ keys, w k ≠ 0) → sumOf (s.map (·.of t)) = 10000
  nothing   : (∀ k ∈ keys, w k = 0) → ∀ b ∈ s, b.of t = 0
  part      : ∀ b ∈ s, b.bin ∈ keys → b.bin ≠ r → b.of t = 10000 * w b.bin / (keys.map w).sum
  mono      : ∀ b ∈ s, ∀ c ∈ s, b.bin ∈ keys → c.bin ∈ keys → b.bin ≠ r → c.bin ≠ r →
                w b.bin ≤ w c.bin → b.of t ≤ c.of t
  leftOver  : ∀ b ∈ s, b.bin ∈ keys → b.bin = r →
                0 ≤ b.of t - 10000 * w r / (keys.map w).sum ∧
                b.of t - 10000 * w r / (keys.map w).sum < keys.length

theorem proportional_ofSides (hn : bins.Nodup)
    (h₀ : ∀ k ∈ t.among active bins, 0 ≤ w k)
    (hr : ∀ k ∈ t.among active bins, r ∈ t.among active bins)
    (hp : parts t = Weights.shared (t.among active bins) w r) :
    (ofSides active bins parts).Proportional t (t.among active bins) w r := by
  have hof {b : BinShare} (hb : b ∈ ofSides active bins parts) := of_of_mem_ofSides hb t
  rw [hp] at hof
  have hpart {b : BinShare} (hb : b ∈ ofSides active bins parts)
      (hk : b.bin ∈ t.among active bins) (hne : b.bin ≠ r) :
      b.of t = Weights.part (t.among active bins) w b.bin := by
    rw [hof hb, if_pos hk, Weights.shared_of_ne hne]
  refine ⟨fun b hb => ?nonneg, fun b hb hk => ?elsewhere, fun ⟨k, hk, hw⟩ => ?whole,
    fun hz b hb => ?nothing, fun b hb hk hne => hpart hb hk hne, ?mono, fun b hb hk he => ?leftOver⟩
  case nonneg =>
    rw [hof hb]
    split
    case isTrue hk => exact Weights.shared_nonneg h₀ hk
    case isFalse   => exact le_rfl
  case elsewhere => rw [hof hb, if_neg hk]
  case whole =>
    rw [sum_ofSides t active hn, hp]
    exact Weights.sum_shared h₀ (t.nodup_among active hn) (hr k hk)
      ⟨k, hk, lt_of_le_of_ne (h₀ k hk) hw.symm⟩
  case nothing => rw [hof hb, Weights.shared_of_forall_eq_zero hz, ite_self]
  case mono =>
    intro b hb c hc hkb hkc hnb hnc hle
    rw [hpart hb hkb hnb, hpart hc hkc hnc]
    exact Weights.part_mono (Weights.sum_nonneg h₀) hle
  case leftOver =>
    rw [hof hb, if_pos hk, he]
    exact Weights.shared_keeper_within h₀ (he ▸ hk)

theorem proportional_inProportion (active : Int) (h₀ : ∀ k ∈ binsFrom lowest highest, 0 ≤ f k)
    (t : Token) :
    (inProportion active lowest highest f).Proportional t
      (t.among active (binsFrom lowest highest)) (Weights.doubled active f)
      (t.keeper active lowest highest) :=
  proportional_ofSides (nodup_binsFrom lowest highest) (doubled_nonneg active h₀ t)
    (fun _ => Token.keeper_mem_among) rfl

-- Weights that are not negative make a shape over all bins of a range, however these are listed:
-- 1. It names each bin once, in order
-- 2. No bin below the active one takes token X, and none above it token Y
-- 3. Each side is shared out in proportion to its weights, which are doubled off the active bin
theorem ofWeights_proportional (active : Int) (hle : lowest ≤ highest)
    (hb : ∀ k, k ∈ bins ↔ k ∈ binsFrom lowest highest) (h₀ : ∀ k ∈ bins, 0 ≤ f k) :
    ∃ s, ofWeights active (.ofBins f bins) = .ok s ∧ s.bins = binsFrom lowest highest ∧
      (∀ b ∈ s, (b.bin < active → b.x = 0) ∧ (active < b.bin → b.y = 0)) ∧
      ∀ t, s.Proportional t (t.among active (binsFrom lowest highest)) (Weights.doubled active f)
        (t.keeper active lowest highest) := by
  have h₀ : ∀ k ∈ binsFrom lowest highest, 0 ≤ f k := fun k hk => h₀ k ((hb k).mpr hk)
  have hshape := ofWeights_eq hle active h₀
  rw [←Weights.ofBins_eq (pairwise_binsFrom lowest highest) hb] at hshape
  have hsides (t : Token) := proportional_inProportion active h₀ t
  refine ⟨_, hshape, bins_ofSides .., fun b hb => ⟨fun hlt => ?below, fun hlt => ?above⟩, hsides⟩
  case below =>
    exact (hsides .x).elsewhere b hb fun hk => hlt.not_ge (Token.mem_among.mp hk).right
  case above =>
    exact (hsides .y).elsewhere b hb fun hk => hlt.not_ge (Token.mem_among.mp hk).right

-- Bins listed out of order and one of them twice. The active one gets the last unit of each side.
theorem ofWeights_proportional_bidAsk :
    (∀ k, k ∈ [2, 0, -1, 1, -2, 0] ↔ k ∈ binsFrom (-2) 2) ∧
    ∃ s, ofWeights 0 (.ofBins (·.natAbs + 1) [2, 0, -1, 1, -2, 0]) = .ok s ∧
      s = [⟨-2, 0, 5454⟩, ⟨-1, 0, 3636⟩, ⟨0, 910, 910⟩, ⟨1, 3636, 0⟩, ⟨2, 5454, 0⟩] ∧
      s.Proportional .x [0, 1, 2] (Weights.doubled 0 (·.natAbs + 1)) 0 ∧
      s.Proportional .y [-2, -1, 0] (Weights.doubled 0 (·.natAbs + 1)) 0 := by
  have hb : ∀ k, k ∈ [2, 0, -1, 1, -2, 0] ↔ k ∈ binsFrom (-2) 2 := by
    intro k
    simp only [List.mem_cons, List.not_mem_nil, or_false, mem_binsFrom]
    omega
  have hle : (-2 : Int) ≤ 2 := by decide
  have ⟨s, hs, _, _, hp⟩ := ofWeights_proportional (f := (·.natAbs + 1)) 0 hle hb (by decide)
  have hok : ofWeights 0 (.ofBins (·.natAbs + 1) [2, 0, -1, 1, -2, 0]) =
      .ok [⟨-2, 0, 5454⟩, ⟨-1, 0, 3636⟩, ⟨0, 910, 910⟩, ⟨1, 3636, 0⟩, ⟨2, 5454, 0⟩] := by
    decide +kernel
  exact ⟨hb, s, hs, Except.ok.inj (hs.symm.trans hok), hp .x, hp .y⟩

end Shape

end BinMarket
