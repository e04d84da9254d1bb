import BinMarket.Proofs.Bins
import BinMarket.Proofs.Deposit.Split
import BinMarket.Proofs.Outcome

/-!
What a deposit plan says. Its amounts add up to the totals, each bin gets what is due to its share,
and only one bin for each token gets more, by less than a unit for each bin that takes the token.
-/

namespace BinMarket

variable {s : Shape} {c : Columns} {plan : List Allocation} {prices : List Int} {t : Token}
  {totalX totalY total step bin : Int} {b : BinShare}

-- The one of two values that belongs to a token.
def Token.pick {α : Type} (t : Token) (x y : α) : α :=
  match t with
  | .x => x
  | .y => y

namespace Allocation

def of (a : Allocation) (t : Token) : Int := t.pick a.amountX a.amountY

def isUsed (a : Allocation) : Bool := a.amountX ≠ 0 ∨ a.amountY ≠ 0

end Allocation

-- What a plan gives a bin of a token, nothing when it does not name the bin.
def given (t : Token) (plan : List Allocation) (bin : Int) : Int :=
  sumOf ((plan.filter (·.bin = bin)).map (·.of t))

namespace Shape

theorem columns_eq_ok_iff : s.columns = .ok c ↔
    s.bins.head? = some c.lowest ∧ s.bins.getLast? = some c.highest ∧ gap? s.bins = none ∧
    c.x = s.map (·.of .x) ∧ c.y = s.map (·.of .y) ∧ c.bins = s.bins := by
  have hx : s.map (·.of .x) = s.map (·.x) := rfl
  have hy : s.map (·.of .y) = s.map (·.y) := rfl
  have hb : s.map (·.bin) = s.bins := rfl
  obtain ⟨lowest, highest, x, y, bins⟩ := c
  rw [hx, hy]
  unfold columns
  simp only [hb]
  split
  case h_2 hn =>
    cases hl : s.bins.head?
    case none   => simp [throw, throwThe, MonadExceptOf.throw]
    case some l => exact absurd hl (hn l)
  case h_1 l hl =>
    split
    case h_2 hn =>
      cases hh : s.bins.getLast?
      case none   => simp [throw, throwThe, MonadExceptOf.throw]
      case some h => exact absurd hh (hn h)
    case h_1 h hh =>
      split
      case h_1 hg => simp [throw, throwThe, MonadExceptOf.throw, hg]
      case h_2 hg => simp [pure, Except.pure, hl, hh, hg, eq_comm]

theorem check_eq (c : Columns) (totalX totalY : Int) : check c totalX totalY =
    if maxBins < c.highest - c.lowest + 1 then .error (.invalid .tooManyBins)
    else if totalX < 0 ∨ totalY < 0 then .error (.invalid (.totalNegative totalX totalY))
    else if (c.x ++ c.y).any (· < 0) then .error (.invalid .shareNegative)
    else .ok () := by
  unfold check
  by_cases hw : maxBins < c.highest - c.lowest + 1
  case pos => simp only [if_pos hw]; rfl
  case neg =>
    by_cases ht : totalX < 0 ∨ totalY < 0
    case pos => simp only [if_neg hw, if_pos ht]; rfl
    case neg => simp only [if_neg hw, if_neg ht]; rfl

theorem check_eq_ok_iff : check c totalX totalY = .ok () ↔
    c.highest < c.lowest + maxBins ∧ 0 ≤ totalX ∧ 0 ≤ totalY ∧ ∀ n ∈ c.x ++ c.y, 0 ≤ n := by
  have hany : (c.x ++ c.y).any (· < 0) ↔ ¬∀ n ∈ c.x ++ c.y, 0 ≤ n := by
    simp only [List.any_eq_true, decide_eq_true_eq, not_forall, exists_prop, not_le]
  rw [check_eq]
  split_ifs with hw ht hs
  case pos => simp; omega
  case pos => simp; omega
  case pos => exact ⟨nofun, fun h => absurd h.right.right.right (hany.mp hs)⟩
  case neg =>
    rw [hany, not_not] at hs
    simp only [true_iff]
    exact ⟨by omega, by omega, by omega, hs⟩

-- What a plan requires whatever part of a total a bin takes.
structure Allowed (s : Shape) (totalX totalY : Int) : Prop where
  gapless : gap? s.bins = none
  narrow  : ∃ lowest highest, s.bins.head? = some lowest ∧ s.bins.getLast? = some highest ∧
              highest < lowest + maxBins
  totals  : ∀ t : Token, 0 ≤ t.pick totalX totalY
  nonneg  : ∀ b ∈ s, ∀ t, 0 ≤ b.of t

theorem allowed_iff : s.Allowed totalX totalY ↔
    ∃ c, s.columns = .ok c ∧ check c totalX totalY = .ok () := by
  constructor
  case mp =>
    intro h
    have ⟨lowest, highest, hl, hh, hw⟩ := h.narrow
    refine ⟨⟨lowest, highest, s.map (·.of .x), s.map (·.of .y), s.bins⟩,
      columns_eq_ok_iff.mpr ⟨hl, hh, h.gapless, rfl, rfl, rfl⟩,
      check_eq_ok_iff.mpr ⟨hw, h.totals .x, h.totals .y, fun n hn => ?_⟩⟩
    rw [List.mem_append, List.mem_map, List.mem_map] at hn
    obtain ⟨b, hb, rfl⟩ | ⟨b, hb, rfl⟩ := hn
    case inl => exact h.nonneg b hb .x
    case inr => exact h.nonneg b hb .y
  case mpr =>
    intro ⟨c, hc, hk⟩
    have ⟨hl, hh, hg, hx, hy, _⟩ := columns_eq_ok_iff.mp hc
    have ⟨hw, htx, hty, hn⟩ := check_eq_ok_iff.mp hk
    rw [hx, hy] at hn
    refine ⟨hg, ⟨_, _, hl, hh, hw⟩, fun t => ?_, fun b hb t => hn _ ?_⟩
    case refine_1 => cases t <;> assumption
    case refine_2 =>
      cases t
      case x => exact List.mem_append_left _ (List.mem_map_of_mem hb)
      case y => exact List.mem_append_right _ (List.mem_map_of_mem hb)

theorem Allowed.ascending (h : s.Allowed totalX totalY) : s.bins.Pairwise (· < ·) :=
  pairwise_of_gap? h.gapless

theorem Allowed.sound (h : s.Allowed totalX totalY) : s.Sound where
  nodup  := h.ascending.imp ne_of_lt
  nonneg := h.nonneg

-- Amounts with their weights, for all bins.
def allocations (bins xs ys prices : List Int) : List Allocation :=
  let values := (xs.zip prices).zipWith (fun (x, price) y => x * price / valueScale + y) ys
  let total := sumOf values
  let weights := values.map fun v => if 0 < total then weightOf v total else 0
  (bins.zip (xs.zip ys)).zipWith
    (fun (bin, amountX, amountY) weight => { bin, amountX, amountY, weight }) weights

theorem plan_eq (s : Shape) (totalX totalY step : Int) :
    s.plan totalX totalY step = (do
      let c ← s.columns
      check c totalX totalY
      let xs ← amounts .x totalX c.x Token.x.place
      let ys ← amounts .y totalY c.y Token.y.place
      let prices ← c.bins.mapM (flooredPrice · step)
      let used := (allocations c.bins xs ys prices).filter Allocation.isUsed
      if used.isEmpty then .error .nothingToAdd else .ok used) := by
  unfold plan
  rfl

def gets (s : Shape) (totalX totalY : Int) (b : BinShare) : Bool :=
  s.allotted .x totalX b ≠ 0 ∨ s.allotted .y totalY b ≠ 0

theorem allotted_of_not_gets (h : ¬s.gets totalX totalY b) (t : Token) :
    s.allotted t (t.pick totalX totalY) b = 0 := by
  rw [gets, decide_eq_true_eq, not_or, not_not, not_not] at h
  cases t
  case x => exact h.left
  case y => exact h.right

-- A bin that gets nothing does not count in a sum of what bins get.
theorem sum_filter_gets (r : Shape) (t : Token) :
    ((r.filter (s.gets totalX totalY)).map (s.allotted t (t.pick totalX totalY))).sum =
      (r.map (s.allotted t (t.pick totalX totalY))).sum :=
  sum_filter_of_zero fun _ _ hb => allotted_of_not_gets hb t

-- The bins that a plan names.
def used (s : Shape) (totalX totalY : Int) : Shape := s.filter (s.gets totalX totalY)

-- The plan that prices lead to. It may be empty.
def planAt (s : Shape) (totalX totalY : Int) (prices : List Int) : List Allocation :=
  (allocations s.bins (s.map (s.allotted .x totalX)) (s.map (s.allotted .y totalY)) prices).filter
    Allocation.isUsed

theorem map_allocations {α : Type} {xs : List α} (f g h : α → Int)
    (hp : prices.length = xs.length) :
    (allocations (xs.map f) (xs.map g) (xs.map h) prices).map
        (fun a => (a.bin, a.amountX, a.amountY)) = xs.map fun x => (f x, g x, h x) := by
  rw [allocations, List.zip_map', List.zip_map', List.map_zipWith]
  refine (List.map_zipWith (f := Prod.fst) (g := Prod.mk) ..).symm.trans (List.map_fst_zip ?_)
  simp [hp]

-- Prices enter the weights of a plan only.
theorem map_planAt (hp : prices.length = s.length) (t : Token) :
    (s.planAt totalX totalY prices).map (fun a => (a.bin, a.of t)) =
      (s.used totalX totalY).map fun b => (b.bin, s.allotted t (t.pick totalX totalY) b) := by
  have h := congrArg (·.filter fun e => e.2.1 ≠ 0 ∨ e.2.2 ≠ 0) <|
    map_allocations (·.bin) (s.allotted .x totalX) (s.allotted .y totalY) hp
  simp only [List.filter_map] at h
  have ht := congrArg (List.map fun e => (e.1, t.pick e.2.1 e.2.2)) h
  simp only [List.map_map] at ht
  cases t <;> exact ht

-- A plan of a shape that is allowed ends in one of three ways: a total has no bin that takes it, a
-- price cannot be had, or the bins that get anything are named, if there are any.
theorem plan_eq_of_allowed (h : s.Allowed totalX totalY) (step : Int) :
    s.plan totalX totalY step =
      if 0 < totalX ∧ s.takers .x = [] then .error (.tokenWithoutBins .x totalX)
      else if 0 < totalY ∧ s.takers .y = [] then .error (.tokenWithoutBins .y totalY)
      else (do
        let prices ← s.bins.mapM (flooredPrice · step)
        let used := s.planAt totalX totalY prices
        if used.isEmpty then .error .nothingToAdd else .ok used) := by
  have ⟨c, hc, hk⟩ := allowed_iff.mp h
  have ⟨_, _, _, hx, hy, hb⟩ := columns_eq_ok_iff.mp hc
  -- What is known of each step takes the place of the step, one after the other.
  rw [plan_eq, hc]
  change (do check c totalX totalY; _) = _
  rw [hk]
  change (do let xs ← amounts .x totalX c.x Token.x.place; _) = _
  rw [hx, h.sound.amounts_eq]
  by_cases htx : 0 < totalX ∧ s.takers .x = []
  case pos => rw [if_pos htx, if_pos htx]; rfl
  case neg =>
    rw [if_neg htx, if_neg htx]
    change (do let ys ← amounts .y totalY c.y Token.y.place; _) = _
    rw [hy, h.sound.amounts_eq]
    by_cases hty : 0 < totalY ∧ s.takers .y = []
    case pos => rw [if_pos hty, if_pos hty]; rfl
    case neg => rw [if_neg hty, if_neg hty, hb]; rfl

-- What is known of a plan that there is.
structure Planned (s : Shape) (totalX totalY : Int) (plan : List Allocation) : Prop where
  allowed : s.Allowed totalX totalY
  takers  : ∀ t : Token, 0 < t.pick totalX totalY → s.takers t ≠ []
  amounts : ∀ t : Token, plan.map (fun a => (a.bin, a.of t)) =
              (s.used totalX totalY).map fun b => (b.bin, s.allotted t (t.pick totalX totalY) b)

theorem planned_planAt (h : s.Allowed totalX totalY)
    (ht : ∀ t : Token, ¬(0 < t.pick totalX totalY ∧ s.takers t = []))
    (hp : s.bins.mapM (flooredPrice · step) = .ok prices) :
    s.Planned totalX totalY (s.planAt totalX totalY prices) := by
  refine ⟨h, fun t hpos hn => ht t ⟨hpos, hn⟩, map_planAt ?_⟩
  rw [←(mapM_eq_ok_iff.mp hp).length_eq, bins, List.length_map]

-- A plan that there is comes from prices.
theorem exists_prices_of_plan (h : s.plan totalX totalY step = .ok plan) :
    ∃ prices, s.bins.mapM (flooredPrice · step) = .ok prices ∧
      plan = s.planAt totalX totalY prices ∧ s.Planned totalX totalY plan := by
  have ha : s.Allowed totalX totalY := by
    rw [plan_eq, bind_eq_ok_iff] at h
    have ⟨c, hc, h⟩ := h
    have ⟨_, hk, _⟩ := bind_eq_ok_iff.mp h
    exact allowed_iff.mpr ⟨c, hc, hk⟩
  rw [plan_eq_of_allowed ha] at h
  split_ifs at h with htx hty
  have ⟨prices, hp, h⟩ := bind_eq_ok_iff.mp h
  simp only at h
  split_ifs at h
  cases h
  exact ⟨prices, hp, rfl, planned_planAt ha (fun t => by cases t <;> assumption) hp⟩

theorem planned_of_plan (h : s.plan totalX totalY step = .ok plan) :
    s.Planned totalX totalY plan :=
  have ⟨_, _, _, hp⟩ := exists_prices_of_plan h
  hp

namespace Planned

variable (h : s.Planned totalX totalY plan)
include h

theorem bins_eq : plan.map (·.bin) = (s.used totalX totalY).bins := by
  have := congrArg (List.map Prod.fst) (h.amounts .x)
  rwa [List.map_map, List.map_map] at this

theorem given_eq (t : Token) (hb : b ∈ s) :
    given t plan b.bin = s.allotted t (t.pick totalX totalY) b := by
  have hg : given t plan b.bin =
      sumOf (((plan.map fun a => (a.bin, a.of t)).filter (·.1 = b.bin)).map (·.2)) := by
    rw [given, List.filter_map, List.map_map]
    rfl
  -- No other bin of the shape has this id.
  have hs : (s.used totalX totalY).filter (·.bin = b.bin) = [b].filter (s.gets totalX totalY) := by
    rw [←filter_key_eq h.allowed.sound.nodup hb, used, List.filter_comm]
  rw [hg, h.amounts, List.filter_map, List.map_map]
  change (((s.used totalX totalY).filter (·.bin = b.bin)).map _).sum = _
  rw [hs]
  exact (sum_filter_gets [b] t).trans List.sum_singleton

-- Each part of a plan is what some bin gets.
theorem exists_share {a : Allocation} (ha : a ∈ plan) (t : Token) :
    ∃ b ∈ s, b.bin = a.bin ∧ s.allotted t (t.pick totalX totalY) b = a.of t := by
  have hm : (a.bin, a.of t) ∈ plan.map fun a => (a.bin, a.of t) :=
    List.mem_map_of_mem (f := fun a : Allocation => (a.bin, a.of t)) ha
  rw [h.amounts t] at hm
  have ⟨b, hb, he⟩ := List.mem_map.mp hm
  exact ⟨b, List.mem_of_mem_filter hb, (Prod.mk.inj he).left, (Prod.mk.inj he).right⟩

theorem sum_eq (t : Token) : sumOf (plan.map (·.of t)) = t.pick totalX totalY := by
  have hm := congrArg (List.map Prod.snd) (h.amounts t)
  rw [List.map_map, List.map_map] at hm
  change plan.map (·.of t) = (s.used totalX totalY).map (s.allotted t (t.pick totalX totalY)) at hm
  rw [hm, sumOf_eq_sum, used, sum_filter_gets]
  by_cases ht : 0 < t.pick totalX totalY
  case pos => exact h.allowed.sound.sum_allotted (h.takers t ht) ht
  case neg =>
    rw [allotted_of_not_pos ht, List.map_const', List.sum_replicate, nsmul_zero]
    exact (h.allowed.totals t).antisymm (not_lt.mp ht)

theorem bins_eq_filter : plan.map (·.bin) =
    s.bins.filter fun bin => given .x plan bin ≠ 0 ∨ given .y plan bin ≠ 0 := by
  rw [h.bins_eq, used, bins, bins, List.filter_map]
  refine congrArg _ (List.filter_congr fun b hb => ?_)
  simp only [Function.comp_apply, h.given_eq _ hb, gets, Token.pick]

theorem ascending : (plan.map (·.bin)).Pairwise (· < ·) := by
  rw [h.bins_eq_filter]
  exact h.allowed.ascending.filter _

theorem eq_nil_iff : plan = [] ↔ totalX = 0 ∧ totalY = 0 := by
  constructor
  case mp =>
    intro hn
    have hx := h.sum_eq .x
    have hy := h.sum_eq .y
    rw [hn] at hx hy
    exact ⟨hx.symm, hy.symm⟩
  case mpr =>
    intro ⟨hx, hy⟩
    have hu : s.used totalX totalY = [] :=
      List.filter_eq_nil_iff.mpr fun b _ => by simp [gets, hx, hy, allotted]
    exact List.map_eq_nil_iff.mp (h.bins_eq.trans (congrArg bins hu))

end Planned

-- With prices at hand, a shape that is allowed is planned unless a total has no bin that takes it, or
-- there is nothing to add.
theorem plan_eq_of_priced (h : s.Allowed totalX totalY)
    (hp : s.bins.mapM (flooredPrice · step) = .ok prices) :
    s.plan totalX totalY step =
      if 0 < totalX ∧ s.takers .x = [] then .error (.tokenWithoutBins .x totalX)
      else if 0 < totalY ∧ s.takers .y = [] then .error (.tokenWithoutBins .y totalY)
      else if totalX = 0 ∧ totalY = 0 then .error .nothingToAdd
      else .ok (s.planAt totalX totalY prices) := by
  rw [plan_eq_of_allowed h, hp]
  split_ifs with htx hty hz
  case pos => rfl
  case pos => rfl
  all_goals
    have hplan := planned_planAt h (fun t => by cases t <;> assumption) hp
    have he := List.isEmpty_iff.trans hplan.eq_nil_iff
  case pos => exact if_pos (he.mpr hz)
  case neg => exact if_neg (mt he.mp hz)

-- What a plan owes to the shares of one token.
structure Apportions (s : Shape) (t : Token) (total : Int) (plan : List Allocation) : Prop where
  sum       : sumOf (plan.map (·.of t)) = total
  least     : ∀ b ∈ s, s.due t total b ≤ given t plan b.bin
  elsewhere : ∀ b ∈ s, some b.bin ≠ s.keeper? t → given t plan b.bin = s.due t total b
  keeper    : 0 < total → ∃ b ∈ s, s.keeper? t = some b.bin ∧
                0 ≤ given t plan b.bin - s.due t total b ∧
                given t plan b.bin - s.due t total b < (s.takers t).length
  nothing   : ∀ b ∈ s, b.of t = 0 → given t plan b.bin = 0
  nonneg    : ∀ a ∈ plan, 0 ≤ a.of t

theorem Planned.apportions (h : s.Planned totalX totalY plan) (t : Token) :
    s.Apportions t (t.pick totalX totalY) plan := by
  have hs := h.allowed.sound
  have ht := h.allowed.totals t
  refine ⟨h.sum_eq t, fun b hb => ?least, fun b hb hk => ?elsewhere, fun hp => ?keeper,
    fun b hb hz => ?nothing, fun a ha => ?nonneg⟩
  case least =>
    rw [h.given_eq t hb]
    obtain hp | hz := ht.lt_or_eq
    case inl => exact hs.due_le_allotted hp hb
    case inr => simp [due, allotted, ←hz]
  case elsewhere =>
    rw [h.given_eq t hb]
    obtain hp | hz := ht.lt_or_eq
    case inl => simp [allotted, hp.not_ge, hk]
    case inr => simp [due, allotted, ←hz]
  case keeper =>
    have hn := h.takers t hp
    obtain ⟨bin, hk⟩ : ∃ bin, s.keeper? t = some bin :=
      Option.ne_none_iff_exists'.mp (mt Token.place_eq_none_iff.mp hn)
    obtain ⟨b, hb, _, he⟩ := mem_takers.mp (Token.mem_of_place hk)
    have hg : given t plan b.bin - s.due t (t.pick totalX totalY) b =
        s.surplus t (t.pick totalX totalY) := by
      rw [h.given_eq t hb, allotted_of_pos hp hk]
      simp [he]
    refine ⟨b, hb, hk.trans (congrArg some he.symm), ?_⟩
    rw [hg]
    exact ⟨hs.surplus_nonneg hn _, hs.surplus_lt hn hp⟩
  case nothing =>
    rw [h.given_eq t hb]
    exact hs.allotted_of_share_eq_zero hb hz
  case nonneg =>
    obtain ⟨b, hb, _, he⟩ := h.exists_share ha t
    exact he ▸ hs.allotted_nonneg ht hb

-- A plan accounts for both totals to the last unit, and names the bins that get anything, in order.
theorem plan_apportions (h : s.plan totalX totalY step = .ok plan) :
    s.Apportions .x totalX plan ∧ s.Apportions .y totalY plan ∧
    (plan.map (·.bin)).Pairwise (· < ·) ∧
    plan.map (·.bin) = s.bins.filter fun bin => given .x plan bin ≠ 0 ∨ given .y plan bin ≠ 0 := by
  have hp := planned_of_plan h
  exact ⟨hp.apportions .x, hp.apportions .y, hp.ascending, hp.bins_eq_filter⟩

-- A shape with uneven shares, and bins that take one token, both or none.
def tiered : Shape := [⟨-2, 0, 0⟩, ⟨-1, 0, 3⟩, ⟨0, 1, 1⟩, ⟨1, 2, 0⟩, ⟨2, 4, 0⟩]

theorem tiered_apportions :
    let plan := [⟨-1, 0, 6, 3674⟩, ⟨0, 14, 1, 9187⟩, ⟨1, 28, 0, 17149⟩, ⟨2, 58, 0, 35523⟩]
    tiered.plan 100 7 10 = .ok plan ∧ tiered.Apportions .x 100 plan ∧
      tiered.Apportions .y 7 plan := by
  intro plan
  have h : tiered.plan 100 7 10 = .ok plan := by decide +kernel
  have ⟨hx, hy, _⟩ := plan_apportions h
  exact ⟨h, hx, hy⟩

end Shape

end BinMarket
