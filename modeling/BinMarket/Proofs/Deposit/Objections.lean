import BinMarket.Proofs.Deposit.Plan
import BinMarket.Proofs.Price
import BinMarket.Report.Basic

/-!
What can be said against a deposit. It is planned exactly if nothing can be said against it, and
otherwise the fault is the first of all that can.
-/

namespace BinMarket

variable {s : Shape} {bins prices : List Int} {totalX totalY step lowest highest : Int}
  {o o' : Category × Fault}

namespace Shape

-- Neighbours that do not follow each other.
def gaps (bins : List Int) : List (Int × Int) :=
  (bins.zip bins.tail).filter fun p => p.2 ≠ p.1 + 1

theorem gap?_eq_head? (bins : List Int) : gap? bins = (gaps bins).head? := by
  fun_induction gap? bins
  case case1 a rest hi   => simp [hi, gaps]
  case case2 a b rest hb => simp [hb, gaps]
  case case3 bins hb     =>
    rcases bins with _ | ⟨a, _ | ⟨b, rest⟩⟩
    · rfl
    · rfl
    · exact absurd rfl (hb a b rest)

theorem gaps_eq_nil_iff : gaps bins = [] ↔ bins.IsChain fun a b => b = a + 1 := by
  rw [←gap?_eq_none_iff, gap?_eq_head?, List.head?_eq_none_iff]

-- Without a gap the outermost bins tell how many there are.
theorem length_of_gap? (h : gap? bins = none) (hl : bins.head? = some lowest)
    (hh : bins.getLast? = some highest) : highest - lowest + 1 = bins.length := by
  fun_induction gap? bins generalizing lowest
  case case1 a rest hi =>
    have := hi h rfl (by simpa using hh)
    cases hl
    simp only [List.length_cons] at this ⊢
    push_cast at this ⊢
    omega
  case case2 => contradiction
  case case3 bins hb =>
    rcases bins with _ | ⟨a, _ | ⟨b, rest⟩⟩
    · contradiction
    · cases hl
      cases hh
      simp
    · exact absurd rfl (hb a b rest)

section Demand

variable {p : Prop} [Decidable p]

-- One objection to what does not hold.
def demand (p : Prop) [Decidable p] (o : Category × Fault) : List (Category × Fault) :=
  if p then [] else [o]

theorem demand_eq_nil_iff : demand p o = [] ↔ p := by
  rw [demand]
  split <;> simp_all

theorem eq_of_mem_demand (h : o ∈ demand p o') : o = o' := by
  rw [demand] at h
  split at h <;> simp_all

theorem head?_demand : (demand p o).head? = if p then none else some o := by
  rw [demand]
  split <;> rfl

theorem head?_demand_append (os : List (Category × Fault)) :
    (demand p o ++ os).head? = if p then os.head? else some o := by
  rw [demand]
  split <;> rfl

end Demand

-- All objections to a deposit, the weightier ones first, with the kind of error that a caller is told.
def objections (s : Shape) (totalX totalY : Int) : List (Category × Fault) :=
  demand (s ≠ []) (.noLiquidityToAdd, .emptyDistribution) ++
  ((gaps s.bins).map fun p => (.discontinuousRange, .gap p.1 p.2)) ++
  demand (s.length ≤ 70) (.configuration, .invalid .tooManyBins) ++
  demand (0 ≤ totalX ∧ 0 ≤ totalY) (.configuration, .invalid (.totalNegative totalX totalY)) ++
  demand (∀ b ∈ s, 0 ≤ b.x ∧ 0 ≤ b.y) (.configuration, .invalid .shareNegative) ++
  demand (0 < totalX → ∃ b ∈ s, 0 < b.x) (.noLiquidityToAdd, .tokenWithoutBins .x totalX) ++
  demand (0 < totalY → ∃ b ∈ s, 0 < b.y) (.noLiquidityToAdd, .tokenWithoutBins .y totalY) ++
  demand (totalX ≠ 0 ∨ totalY ≠ 0) (.noLiquidityToAdd, .nothingToAdd)

-- What a deposit has to be in order to be planned.
structure Valid (s : Shape) (totalX totalY : Int) : Prop where
  nonempty    : s ≠ []
  consecutive : s.bins.IsChain fun a b => b = a + 1
  narrow      : s.length ≤ 70
  totals      : 0 ≤ totalX ∧ 0 ≤ totalY
  shares      : ∀ b ∈ s, 0 ≤ b.x ∧ 0 ≤ b.y
  takenX      : 0 < totalX → ∃ b ∈ s, 0 < b.x
  takenY      : 0 < totalY → ∃ b ∈ s, 0 < b.y
  some        : 0 < totalX + totalY

theorem objections_eq_nil_iff : s.objections totalX totalY = [] ↔ s.Valid totalX totalY := by
  simp only [objections, List.append_eq_nil_iff, List.map_eq_nil_iff, demand_eq_nil_iff,
    gaps_eq_nil_iff, and_assoc]
  constructor
  case mp =>
    intro ⟨hs, hg, hw, htx, hty, hn, hx, hy, hz⟩
    exact ⟨hs, hg, hw, ⟨htx, hty⟩, hn, hx, hy, by omega⟩
  case mpr =>
    intro ⟨hs, hg, hw, ⟨htx, hty⟩, hn, hx, hy, hz⟩
    exact ⟨hs, hg, hw, htx, hty, hn, hx, hy, by omega⟩

-- Each objection is told as the kind of error that stands beside it.
theorem category_of_objection (ho : o ∈ s.objections totalX totalY) :
    o.2.report?.map (·.category) = some o.1 := by
  simp only [objections, List.mem_append, List.mem_map, or_assoc] at ho
  rcases ho with h | h | h | h | h | h | h | h
  case inr.inl =>
    obtain ⟨p, _, rfl⟩ := h
    rfl
  all_goals
    rw [eq_of_mem_demand h]
    rfl

section Refused

variable {c : Columns} {fault : Fault}

theorem plan_of_columns_error (h : s.columns = .error fault) :
    s.plan totalX totalY step = .error fault := by
  rw [plan_eq, h]
  rfl

theorem plan_of_check_error (hc : s.columns = .ok c) (h : check c totalX totalY = .error fault) :
    s.plan totalX totalY step = .error fault := by
  rw [plan_eq, hc]
  change (do check c totalX totalY; _) = _
  rw [h]
  rfl

theorem exists_outermost (hs : s ≠ []) :
    ∃ lowest highest, s.bins.head? = some lowest ∧ s.bins.getLast? = some highest := by
  have hb : s.bins ≠ [] := mt List.map_eq_nil_iff.mp hs
  have ⟨lowest, hl⟩ := Option.ne_none_iff_exists'.mp (mt List.head?_eq_none_iff.mp hb)
  have ⟨highest, hh⟩ := Option.ne_none_iff_exists'.mp (mt List.getLast?_eq_none_iff.mp hb)
  exact ⟨lowest, highest, hl, hh⟩

theorem columns_of_gap {p : Int × Int} (hs : s ≠ []) (hg : gap? s.bins = some p) :
    s.columns = .error (.gap p.1 p.2) := by
  have ⟨lowest, highest, hl, hh⟩ := exists_outermost hs
  rw [bins] at hg hl hh
  simp only [columns, hg, hl, hh]
  rfl

theorem exists_columns (hs : s ≠ []) (hg : gap? s.bins = none) :
    ∃ c, s.columns = .ok c ∧ c.highest - c.lowest + 1 = s.length ∧ c.x = s.map (·.x) ∧
      c.y = s.map (·.y) := by
  have ⟨lowest, highest, hl, hh⟩ := exists_outermost hs
  refine ⟨⟨lowest, highest, s.map (·.x), s.map (·.y), s.bins⟩,
    columns_eq_ok_iff.mpr ⟨hl, hh, hg, rfl, rfl, rfl⟩, ?_, rfl, rfl⟩
  rw [length_of_gap? hg hl hh, bins, List.length_map]

end Refused

theorem untaken_iff {t : Token} {total : Int} :
    0 < total ∧ s.takers t = [] ↔ ¬(0 < total → ∃ b ∈ s, 0 < b.of t) := by
  simp [takers, bins]

theorem any_neg_iff : (s.map (·.x) ++ s.map (·.y)).any (· < 0) ↔ ¬∀ b ∈ s, 0 ≤ b.x ∧ 0 ≤ b.y := by
  simp only [List.any_append, List.any_map, Bool.or_eq_true, List.any_eq_true, Function.comp_apply,
    decide_eq_true_eq, not_forall, not_and_or, not_le, exists_prop, and_or_left, exists_or]

-- The conditions are checked one after the other, and the first that fails decides.
theorem plan_eq_of_objections (hp : s.bins.mapM (flooredPrice · step) = .ok prices)
    (totalX totalY : Int) :
    s.plan totalX totalY step =
      match (s.objections totalX totalY).head? with
      | some o => .error o.2
      | none   => .ok (s.planAt totalX totalY prices) := by
  simp only [objections, List.append_assoc, head?_demand_append]
  by_cases hs : s = []
  case pos => rw [hs]; rfl
  case neg =>
  rw [if_pos hs]
  cases hg : gap? s.bins
  case some p =>
    rw [plan_of_columns_error (columns_of_gap hs hg)]
    rw [gap?_eq_head?, List.head?_eq_some_iff] at hg
    obtain ⟨rest, hg⟩ := hg
    rw [hg]
    rfl
  case none =>
  have hgaps : gaps s.bins = [] := gaps_eq_nil_iff.mpr (gap?_eq_none_iff.mp hg)
  have ⟨c, hc, hwidth, hx, hy⟩ := exists_columns hs hg
  have hcheck := check_eq c totalX totalY
  rw [hwidth, hx, hy] at hcheck
  rw [hgaps, List.map_nil, List.nil_append]
  simp only [head?_demand_append, head?_demand]
  by_cases hw : s.length ≤ 70
  case neg =>
    rw [if_pos (by rw [maxBins]; omega)] at hcheck
    rw [if_neg hw, plan_of_check_error hc hcheck]
  case pos =>
  rw [if_neg (by rw [maxBins]; omega)] at hcheck
  rw [if_pos hw]
  by_cases ht : 0 ≤ totalX ∧ 0 ≤ totalY
  case neg =>
    rw [if_pos (by omega)] at hcheck
    rw [if_neg ht, plan_of_check_error hc hcheck]
  case pos =>
  rw [if_neg (by omega)] at hcheck
  rw [if_pos ht]
  by_cases hn : ∀ b ∈ s, 0 ≤ b.x ∧ 0 ≤ b.y
  case neg =>
    rw [if_pos (any_neg_iff.mpr hn)] at hcheck
    rw [if_neg hn, plan_of_check_error hc hcheck]
  case pos =>
  rw [if_neg (mt any_neg_iff.mp (not_not.mpr hn))] at hcheck
  rw [if_pos hn, plan_eq_of_priced (allowed_iff.mpr ⟨c, hc, hcheck⟩) hp]
  simp only [untaken_iff, BinShare.of, ne_eq, ←not_and_or, ite_not]
  split_ifs <;> rfl

-- Where the bins of a shape have prices:
-- 1. A deposit is planned exactly if it is valid
-- 2. Otherwise the fault is that of the first objection
-- 3. Each objection is told as the kind of error that it is listed with
theorem plan_verdict (hp : ∀ b ∈ s, Priced step b.bin) :
    ((∃ plan, s.plan totalX totalY step = .ok plan) ↔ s.Valid totalX totalY) ∧
    (∀ fault, s.plan totalX totalY step = .error fault ↔
      ∃ category, (s.objections totalX totalY).head? = some (category, fault)) ∧
    ∀ o ∈ s.objections totalX totalY, o.2.report?.map (·.category) = some o.1 := by
  have ⟨prices, hprices⟩ : ∃ prices, s.bins.mapM (flooredPrice · step) = .ok prices := by
    refine exists_mapM fun bin hbin => ?_
    obtain ⟨b, hb, rfl⟩ := List.mem_map.mp hbin
    exact priced_iff.mp (hp b hb)
  have hplan := plan_eq_of_objections hprices totalX totalY
  refine ⟨?planned, ?refused, fun _ => category_of_objection⟩
  case planned =>
    rw [←objections_eq_nil_iff, hplan]
    cases s.objections totalX totalY <;> simp
  case refused =>
    intro fault
    rw [hplan]
    cases s.objections totalX totalY
    case nil       => simp
    case cons o os => simp [Prod.ext_iff]

-- Bins that leave two gaps, and a negative share.
def torn : Shape := [⟨0, 1, 0⟩, ⟨2, -1, 0⟩, ⟨5, 0, 0⟩]

-- With a negative total as well, it still is the first gap that is told.
theorem plan_verdict_torn :
    (∀ b ∈ tiered, Priced 10 b.bin) ∧ tiered.Valid 100 7 ∧
    (∃ plan, tiered.plan 100 7 10 = .ok plan) ∧
    (∀ b ∈ torn, Priced 10 b.bin) ∧ torn.plan (-3) 0 10 = .error (.gap 0 2) ∧
    (Fault.gap 0 2).report?.map (·.category) = some .discontinuousRange := by
  have hp : ∀ b ∈ tiered, Priced 10 b.bin := by decide +kernel
  have hv : tiered.Valid 100 7 := objections_eq_nil_iff.mp (by decide +kernel)
  have hp' : ∀ b ∈ torn, Priced 10 b.bin := by decide +kernel
  have ⟨_, hfault, hcategory⟩ := @plan_verdict torn (-3) 0 10 hp'
  exact ⟨hp, hv, (plan_verdict hp).left.mpr hv, hp', (hfault _).mpr ⟨.discontinuousRange, rfl⟩,
    hcategory (.discontinuousRange, .gap 0 2) (List.mem_of_head? rfl)⟩

end Shape

end BinMarket
