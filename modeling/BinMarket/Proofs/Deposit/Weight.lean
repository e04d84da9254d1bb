import BinMarket.Proofs.Deposit.Plan
import BinMarket.Proofs.Price.RoundTrip

/-!
Weights of a deposit by value. Each bin weighs its part of the whole value in 65535ths, rounded
down, so all of them together fall short of 65535 by less than one unit for each bin that is worth
anything.
-/

namespace BinMarket

variable {α : Type} {s : Shape} {plan : List Allocation}
  {values weights prices : List Int} {totalX totalY step bin n v v' : Int} {xs : List α}

namespace Shape

-- Prices are positive, so a price that is rounded down is not negative.
theorem flooredPrice_nonneg (h : flooredPrice bin step = .ok n) : 0 ≤ n := by
  have ⟨price, hprice, h⟩ := bind_eq_ok_iff.mp h
  have ⟨scaled, hscaled, h⟩ := bind_eq_ok_iff.mp h
  have ⟨b, _, _, hb, hrounded⟩ := Price.value_of_ofBin hprice
  have hvalue : (0 : ℝ) ≤ price.value := hrounded.rounds.le_of_fits (.zero _) (zpow_pos hb bin).le
  have hmul := Decimal.mul_rounded (p := Price.digits) (y := .ofInt valueScale) (by decide)
    hrounded.isFinite .intro
  rw [eq_ok_of_liftM hscaled] at hmul
  have hscale : (0 : ℝ) ≤ (Decimal.ofInt valueScale).value := by
    rw [Decimal.value_ofInt]
    norm_num [valueScale]
  have hpos : (0 : ℝ) ≤ scaled.value :=
    hmul.rounds.le_of_fits (.zero _) (mul_nonneg hvalue hscale)
  have hn := (Decimal.truncate_eq hmul.isFinite).symm.trans (eq_ok_of_liftM h)
  rw [if_pos (by exact_mod_cast hpos)] at hn
  cases hn
  exact Int.floor_nonneg.mpr (by exact_mod_cast hpos)

theorem weightOf_zero (total : Int) : weightOf 0 total = 0 := by
  rw [weightOf, zero_mul, Int.zero_fdiv]

theorem weightOf_of_total_eq_zero (value : Int) : weightOf value 0 = 0 :=
  Int.fdiv_zero _

section Total

variable {total : Int} (ht : 0 ≤ total)
include ht

theorem weightOf_eq (value : Int) : weightOf value total = maxWeight * value / total := by
  rw [weightOf, mul_comm, Int.fdiv_eq_ediv_of_nonneg _ ht]

theorem weightOf_nonneg (hv : 0 ≤ v) : 0 ≤ weightOf v total := by
  rw [weightOf_eq ht]
  exact Int.ediv_nonneg (mul_nonneg (by decide) hv) ht

theorem weightOf_mono (h : v ≤ v') : weightOf v total ≤ weightOf v' total := by
  obtain rfl | hp := ht.eq_or_lt
  case inl => rw [weightOf_of_total_eq_zero, weightOf_of_total_eq_zero]
  case inr =>
    rw [weightOf_eq ht, weightOf_eq ht]
    exact Int.ediv_le_ediv hp (mul_le_mul_of_nonneg_left h (by decide))

end Total

-- What weights owe to the values that they compare. There is one for each value, and only values
-- that are not zero may lose something to the rounding.
structure Weighs (values weights : List Int) : Prop where
  length  : weights.length = values.length
  within  : ∀ w ∈ weights, 0 ≤ w ∧ w ≤ 65535
  most    : sumOf weights ≤ 65535
  least   : 0 < sumOf values → 65535 - values.countP (0 < ·) < sumOf weights
  mono    : ∀ p ∈ values.zip weights, ∀ q ∈ values.zip weights, p.1 ≤ q.1 → p.2 ≤ q.2
  nothing : sumOf values = 0 → ∀ w ∈ weights, w = 0

theorem weighs (h₀ : ∀ v ∈ values, 0 ≤ v) :
    Weighs values (values.map (weightOf · (sumOf values))) := by
  have hs : 0 ≤ sumOf values := List.sum_nonneg h₀
  have hmap : values.map (weightOf · (sumOf values)) =
      values.map (maxWeight * · / values.sum) :=
    List.map_congr_left fun v _ => weightOf_eq hs v
  have hnonneg : ∀ w ∈ values.map (weightOf · (sumOf values)), 0 ≤ w :=
    List.forall_mem_map.mpr fun v hv => weightOf_nonneg hs (h₀ v hv)
  have hmost : sumOf (values.map (weightOf · (sumOf values))) ≤ 65535 := by
    obtain hz | hp := hs.eq_or_lt
    case inl => simp [←hz, weightOf_of_total_eq_zero, sumOf_eq_sum]
    case inr =>
      rw [hmap]
      exact sum_parts_le hp 65535
  refine ⟨List.length_map _, fun w hw => ⟨hnonneg w hw, ?within⟩, hmost, fun hp => ?least, ?mono,
    fun hz => ?nothing⟩
  case within => exact (List.single_le_sum hnonneg w hw).trans hmost
  case least =>
    have hlt := lt_sum_parts hp (c := 65535) (by decide)
    have hcount : values.countP (0 < ·) = values.countP (· ≠ 0) :=
      List.countP_congr fun v hv => by simpa using (h₀ v hv).lt_iff_ne'
    rw [hcount, hmap]
    exact hlt
  case mono =>
    rw [←List.map_prod_left_eq_zip]
    simp only [List.forall_mem_map]
    exact fun v _ v' _ hle => weightOf_mono hs hle
  case nothing =>
    rw [hz]
    exact List.forall_mem_map.mpr fun v _ => weightOf_of_total_eq_zero v

theorem value_eq_ok_iff {b : BinShare} : value totalX totalY step b = .ok v ↔
    ∃ price, flooredPrice b.bin step = .ok price ∧
      v = totalX * b.x * price / 10000 / valueScale + totalY * b.y / 10000 := by
  rw [value, bind_eq_ok_iff]
  exact exists_congr fun _ => and_congr_right fun _ =>
    ⟨fun he => (Except.ok.inj he).symm, fun he => congrArg _ he.symm⟩

theorem values_nonneg (htx : 0 ≤ totalX) (hty : 0 ≤ totalY) (hn : ∀ b ∈ s, 0 ≤ b.x ∧ 0 ≤ b.y)
    (h : s.mapM (value totalX totalY step) = .ok values) : ∀ v ∈ values, 0 ≤ v := by
  intro v hv
  have ⟨b, hb, hv⟩ := exists_of_mem_forall₂ (mapM_eq_ok_iff.mp h) hv
  obtain ⟨price, hprice, rfl⟩ := value_eq_ok_iff.mp hv
  have hprice := flooredPrice_nonneg hprice
  have ⟨hx, hy⟩ := hn b hb
  refine add_nonneg (Int.ediv_nonneg (Int.ediv_nonneg ?_ (by decide)) (by decide))
    (Int.ediv_nonneg (mul_nonneg hty hy) (by decide))
  exact mul_nonneg (mul_nonneg htx hx) hprice

-- Once there are values, there are weights. Values that are all zero leave no bin.
theorem byWeight_eq (h : s.mapM (value totalX totalY step) = .ok values) :
    s.byWeight totalX totalY step =
      .ok ((s.bins.zip (values.map (weightOf · (sumOf values)))).filter (0 < ·.2)) := by
  rw [byWeight, h]
  change (if sumOf values = 0 then Except.ok [] else _) = _
  split
  case isTrue hz =>
    rw [hz, List.filter_eq_nil_iff.mpr]
    intro e he
    obtain ⟨v, _, hv⟩ := List.mem_map.mp (List.of_mem_zip he).right
    rw [←hv, weightOf_of_total_eq_zero]
    decide
  case isFalse => rfl

theorem exists_byWeight_iff :
    (∃ out, s.byWeight totalX totalY step = .ok out) ↔ ∀ b ∈ s, Priced step b.bin := by
  simp only [priced_iff]
  constructor
  case mp =>
    intro ⟨out, h⟩ b hb
    have ⟨values, hv, _⟩ := bind_eq_ok_iff.mp h
    have ⟨v, _, hv⟩ := exists_of_mem_forall₂ (mapM_eq_ok_iff.mp hv).flip hb
    have ⟨price, hprice, _⟩ := value_eq_ok_iff.mp hv
    exact ⟨price, hprice⟩
  case mpr =>
    intro h
    have ⟨values, hv⟩ := exists_mapM (f := value totalX totalY step) fun b hb =>
      have ⟨price, hprice⟩ := h b hb
      ⟨_, value_eq_ok_iff.mpr ⟨price, hprice, rfl⟩⟩
    exact ⟨_, byWeight_eq hv⟩

-- What a bin is to get is worth this at its price, in units of token Y.
def allottedWorth (s : Shape) (totalX totalY : Int) (e : BinShare × Int) : Int :=
  s.allotted .x totalX e.1 * e.2 / valueScale + s.allotted .y totalY e.1

-- Amounts with their weights are made from the pairs of a bin and its price.
theorem allocations_eq (f g h : α → Int) (hl : prices.length = xs.length) :
    allocations (xs.map f) (xs.map g) (xs.map h) prices =
      (xs.zip prices).map fun e =>
        let value (e : α × Int) := g e.1 * e.2 / valueScale + h e.1
        let total := sumOf ((xs.zip prices).map value)
        { bin := f e.1
          amountX := g e.1
          amountY := h e.1
          weight := if 0 < total then weightOf (value e) total else 0 } := by
  obtain ⟨l, rfl, rfl⟩ : ∃ l : List (α × Int), l.map (·.1) = xs ∧ l.map (·.2) = prices :=
    ⟨xs.zip prices, List.map_fst_zip hl.ge, List.map_snd_zip hl.le⟩
  simp only [allocations, List.zip_map', List.zipWith_map, List.zipWith_self, List.map_map,
    Function.comp_def]

theorem planAt_eq (hl : prices.length = s.length) :
    s.planAt totalX totalY prices =
      ((s.zip prices).filter fun e => s.gets totalX totalY e.1).map fun e =>
        let total := sumOf ((s.zip prices).map (s.allottedWorth totalX totalY))
        { bin := e.1.bin
          amountX := s.allotted .x totalX e.1
          amountY := s.allotted .y totalY e.1
          weight := if 0 < total then weightOf (s.allottedWorth totalX totalY e) total else 0 } := by
  rw [planAt, bins, allocations_eq _ _ _ hl, List.filter_map]
  rfl

-- What a plan puts into a bin is worth this at a price, in units of token Y.
def worth (plan : List Allocation) (bin price : Int) : Int :=
  given .x plan bin * price / valueScale + given .y plan bin

theorem Planned.worths_eq (h : s.Planned totalX totalY plan) (prices : List Int) :
    List.zipWith (worth plan) s.bins prices =
      (s.zip prices).map (s.allottedWorth totalX totalY) := by
  rw [bins, List.zipWith_map_left, ←List.map_uncurry_zip_eq_zipWith]
  refine List.map_congr_left fun e he => ?_
  have hb := (List.of_mem_zip he).left
  rw [Function.uncurry, worth, h.given_eq _ hb, h.given_eq _ hb]
  rfl

theorem Allowed.worths_nonneg (h : s.Allowed totalX totalY) (h₀ : ∀ n ∈ prices, 0 ≤ n) :
    ∀ v ∈ (s.zip prices).map (s.allottedWorth totalX totalY), 0 ≤ v := by
  rw [List.forall_mem_map]
  intro e he
  have ⟨hb, hp⟩ := List.of_mem_zip he
  have hallotted (t : Token) := h.sound.allotted_nonneg (t := t) (h.totals t) hb
  have hx := mul_nonneg (hallotted .x) (h₀ _ hp)
  exact add_nonneg (Int.ediv_nonneg hx (by decide)) (hallotted .y)

section PlanAt

variable (hl : prices.length = s.length)
  (hv : (s.zip prices).map (s.allottedWorth totalX totalY) = values) (h₀ : 0 ≤ sumOf values)
include hl hv h₀

theorem map_weight_planAt : (s.planAt totalX totalY prices).map (fun a => (a.bin, a.weight)) =
    ((s.zip prices).filter fun e => s.gets totalX totalY e.1).map fun e =>
      (e.1.bin, weightOf (s.allottedWorth totalX totalY e) (sumOf values)) := by
  have hweight (v : Int) : (if 0 < sumOf values then weightOf v (sumOf values) else 0) =
      weightOf v (sumOf values) := by
    obtain hz | hp := h₀.eq_or_lt
    case inl => rw [←hz, if_neg (lt_irrefl 0), weightOf_of_total_eq_zero]
    case inr => rw [if_pos hp]
  rw [planAt_eq hl, hv, List.map_map]
  simp only [Function.comp_def, hweight]

-- A bin that gets nothing weighs nothing.
theorem sum_weight_planAt : sumOf ((s.planAt totalX totalY prices).map (·.weight)) =
    sumOf (values.map (weightOf · (sumOf values))) := by
  have hmap := congrArg (List.map Prod.snd) (map_weight_planAt hl hv h₀)
  rw [List.map_map, List.map_map] at hmap
  change (s.planAt totalX totalY prices).map (·.weight) = _ at hmap
  rw [hmap, sumOf_eq_sum, sum_filter_of_zero, sumOf_eq_sum, ←hv, List.map_map]
  · rfl
  · intro e _ he
    have hx : s.allotted .x totalX e.1 = 0 := allotted_of_not_gets he .x
    have hy : s.allotted .y totalY e.1 = 0 := allotted_of_not_gets he .y
    simp [allottedWorth, hx, hy, weightOf_zero]

-- The bins that get nothing are those that a plan gives nothing.
theorem Planned.map_weight_eq (h : s.Planned totalX totalY (s.planAt totalX totalY prices)) :
    let plan := s.planAt totalX totalY prices
    plan.map (fun a => (a.bin, a.weight)) =
      (s.bins.zip (values.map (weightOf · (sumOf values)))).filter fun e =>
        given .x plan e.1 ≠ 0 ∨ given .y plan e.1 ≠ 0 := by
  intro plan
  have hzip : s.bins.zip (values.map (weightOf · (sumOf values))) =
      (s.zip prices).map fun e =>
        (e.1.bin, weightOf (s.allottedWorth totalX totalY e) (sumOf values)) := by
    have hbins : s.bins = (s.zip prices).map (·.1.bin) := by
      conv_lhs => rw [bins, ←List.map_fst_zip hl.ge, List.map_map]
      rfl
    conv_lhs => rw [hbins, ←hv, List.map_map, List.zip_map', hv]
    rfl
  rw [hzip, List.filter_map]
  refine (map_weight_planAt hl hv h₀).trans (congrArg _ (List.filter_congr fun e he => ?_))
  have hb := (List.of_mem_zip he).left
  simp only [Function.comp_apply, plan, h.given_eq _ hb, gets, Token.pick]

end PlanAt

theorem exists_weights_of_byWeight {out : List (Int × Int)} (htx : 0 ≤ totalX) (hty : 0 ≤ totalY)
    (hn : ∀ b ∈ s, 0 ≤ b.x ∧ 0 ≤ b.y) (hout : s.byWeight totalX totalY step = .ok out) :
    ∃ values weights, s.mapM (value totalX totalY step) = .ok values ∧
      Weighs values weights ∧
      out = (s.bins.zip weights).filter (0 < ·.2) ∧
      sumOf (out.map (·.2)) = sumOf weights ∧
      (sumOf values = 0 → out = []) := by
  obtain ⟨values, hv, _⟩ := bind_eq_ok_iff.mp hout
  have h₀ := values_nonneg htx hty hn hv
  have hw := weighs h₀
  have hl : values.length = s.length := (mapM_eq_ok_iff.mp hv).length_eq.symm
  have he := Except.ok.inj (hout.symm.trans (byWeight_eq hv))
  refine ⟨values, _, hv, hw, he, ?sum, fun hz => ?nil⟩
  case sum =>
    have hzero : ∀ e ∈ s.bins.zip (values.map (weightOf · (sumOf values))),
        ¬decide (0 < e.2) → e.2 = 0 := by
      intro e he hp
      have hm := (hw.within _ (List.of_mem_zip he).right).left
      exact (not_lt.mp (mt decide_eq_true hp)).antisymm hm
    rw [he]
    refine (sum_filter_of_zero hzero).trans (congrArg List.sum (List.map_snd_zip ?_))
    simp [hl, bins]
  case nil =>
    rw [he, List.filter_eq_nil_iff]
    intro e he
    simp [hw.nothing hz _ (List.of_mem_zip he).right]

theorem exists_weights_of_plan (hplan : s.plan totalX totalY step = .ok plan) :
    ∃ prices values weights, s.bins.mapM (flooredPrice · step) = .ok prices ∧
      List.zipWith (worth plan) s.bins prices = values ∧
      Weighs values weights ∧
      plan.map (fun a => (a.bin, a.weight)) =
        ((s.bins.zip weights).filter fun e => given .x plan e.1 ≠ 0 ∨ given .y plan e.1 ≠ 0) ∧
      sumOf (plan.map (·.weight)) = sumOf weights ∧
      (sumOf values = 0 → ∀ a ∈ plan, a.weight = 0) := by
  obtain ⟨prices, hp, rfl, hplanned⟩ := exists_prices_of_plan hplan
  have hl : prices.length = s.length := by
    rw [←(mapM_eq_ok_iff.mp hp).length_eq, bins, List.length_map]
  have hprices : ∀ n ∈ prices, 0 ≤ n := by
    intro n hn
    obtain ⟨_, _, hn⟩ := exists_of_mem_forall₂ (mapM_eq_ok_iff.mp hp) hn
    exact flooredPrice_nonneg hn
  have h₀ := hplanned.allowed.worths_nonneg hprices
  have hw := weighs h₀
  have hs := List.sum_nonneg h₀
  have hmap := hplanned.map_weight_eq hl rfl hs
  refine ⟨prices, _, _, hp, hplanned.worths_eq prices, hw, hmap, sum_weight_planAt hl rfl hs,
    fun hz a ha => ?_⟩
  have ha := List.mem_map_of_mem (f := fun a : Allocation => (a.bin, a.weight)) ha
  rw [hmap] at ha
  exact hw.nothing hz _ (List.of_mem_zip (List.mem_of_mem_filter ha)).right

-- Weights by value, of a deposit by shares and of a plan. The values of a plan are those of the
-- amounts that it gives.
theorem weights_nearly_whole (htx : 0 ≤ totalX) (hty : 0 ≤ totalY)
    (hn : ∀ b ∈ s, 0 ≤ b.x ∧ 0 ≤ b.y) (step : Int) :
    ((∃ out, s.byWeight totalX totalY step = .ok out) ↔ ∀ b ∈ s, Priced step b.bin) ∧
    (∀ out, s.byWeight totalX totalY step = .ok out →
      ∃ values weights, s.mapM (value totalX totalY step) = .ok values ∧
        Weighs values weights ∧
        out = (s.bins.zip weights).filter (0 < ·.2) ∧
        sumOf (out.map (·.2)) = sumOf weights ∧
        (sumOf values = 0 → out = [])) ∧
    ∀ plan, s.plan totalX totalY step = .ok plan →
      ∃ prices values weights, s.bins.mapM (flooredPrice · step) = .ok prices ∧
        List.zipWith (worth plan) s.bins prices = values ∧
        Weighs values weights ∧
        plan.map (fun a => (a.bin, a.weight)) =
          ((s.bins.zip weights).filter fun e => given .x plan e.1 ≠ 0 ∨ given .y plan e.1 ≠ 0) ∧
        sumOf (plan.map (·.weight)) = sumOf weights ∧
        (sumOf values = 0 → ∀ a ∈ plan, a.weight = 0) :=
  ⟨exists_byWeight_iff, fun _ => exists_weights_of_byWeight htx hty hn,
    fun _ => exists_weights_of_plan⟩

-- A shape far below a price of one. A few units of token X are worth less than one of token Y.
def faint : Shape := [⟨-2000, 1, 0⟩, ⟨-1999, 2, 0⟩]

theorem weights_nearly_whole_tiered :
    let out := [(-1, 39321), (0, 14979), (1, 3744), (2, 7489)]
    let plan := [⟨-1, 0, 52500, 43000⟩, ⟨0, 1428, 17500, 15503⟩, ⟨1, 2857, 0, 2341⟩,
      ⟨2, 5715, 0, 4689⟩]
    tiered.byWeight 10000 70000 10 = .ok out ∧
    (∃ values, tiered.mapM (value 10000 70000 10) = .ok values ∧ sumOf values = 35 ∧
      65535 - values.countP (0 < ·) < sumOf (out.map (·.2))) ∧
    tiered.plan 10000 70000 10 = .ok plan ∧
    (∃ prices, tiered.bins.mapM (flooredPrice · 10) = .ok prices ∧
      ∃ weights, Weighs (List.zipWith (worth plan) tiered.bins prices) weights ∧
        sumOf (plan.map (·.weight)) = sumOf weights) ∧
    faint.byWeight 3 0 10 = .ok [] ∧
    faint.plan 3 0 10 = .ok [⟨-2000, 1, 0, 0⟩, ⟨-1999, 2, 0, 0⟩] := by
  intro out plan
  have hout : tiered.byWeight 10000 70000 10 = .ok out := by decide +kernel
  have hplan : tiered.plan 10000 70000 10 = .ok plan := by decide +kernel
  have hvalues : tiered.mapM (value 10000 70000 10) = .ok [0, 21, 8, 2, 4] := by decide +kernel
  have ⟨_, hbyWeight, hplanned⟩ := weights_nearly_whole (s := tiered)
    (by decide : (0 : Int) ≤ 10000) (by decide : (0 : Int) ≤ 70000) (by decide) 10
  have ⟨values, _, hv, hw, _, hsum, _⟩ := hbyWeight out hout
  have ⟨prices, values', weights, hp, he, hw', _, hsum', _⟩ := hplanned plan hplan
  cases hv.symm.trans hvalues
  exact ⟨hout, ⟨_, hvalues, rfl, hsum ▸ hw.least (by decide)⟩, hplan,
    ⟨prices, hp, weights, he ▸ hw', hsum'⟩, by decide +kernel, by decide +kernel⟩

end Shape

end BinMarket
