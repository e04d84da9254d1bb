import BinMarket.Proofs.Swap.Capacity
import BinMarket.Proofs.Swap.InStep
import BinMarket.Proofs.Swap.Worth

/-!
Quotes grow with the input. Walks with different inputs do the same until the smaller input is used
up, and from there on the other walk only adds to what both have.
-/

namespace BinMarket

open Direction

variable {p : Pool} {e : Option Extension} {arrays : List BinArray} {r : Route} {s u v w w' : Walk}
  {b : Bin} {fee : DynamicFee} {d : Direction} {f g : Fill} {amount larger slippage now left : Int}
  {q : SwapQuote}

-- A fill that another one exceeds or equals in every amount.
structure Fill.AtMost (f g : Fill) : Prop where
  amountIn    : f.amountIn ≤ g.amountIn
  amountOut   : f.amountOut ≤ g.amountOut
  fee         : f.fee ≤ g.fee
  protocolFee : f.protocolFee ≤ g.protocolFee

-- With less input a bin does the same as long as it leaves some of it. Otherwise it takes all of it
-- and charges and gives no more, whether the larger input drains the bin or not.
theorem Bin.exists_fill_of_le (ht : b.Tradable d) (hc : fee.Charges)
    (hs : 0 ≤ fee.parameters.protocolShare) (ha : 0 < amount) (hle : amount ≤ larger)
    (hg : b.fill fee larger d = .ok g) :
    (b.fill fee amount d = .ok g ∧ g.amountIn < amount) ∨
    ∃ f, b.fill fee amount d = .ok f ∧ f.amountIn = amount ∧ f.AtMost g := by
  cases filling_of_fill hg
  case nothing ho => exact .inl ⟨fill_of_output_eq_zero ho, ha⟩
  case drained net ho hn hlt =>
    by_cases hl : net + fee.onTop net < amount
    case pos => exact .inl ⟨fill_of_lt ho hn hl, hl⟩
    case neg =>
      have hl := not_lt.mp hl
      have ⟨_, hb⟩ := exists_buys_of_price (ht.priced ho) (amount - fee.inside amount) d
      have hfee := hc.inside_le_onTop hl
      exact .inr ⟨_, fill_of_le ho hn hl hb, rfl, hl, min_le_right .., hfee,
        DynamicFee.protocolCut_mono hs hfee⟩
  case partly net bought ho hn hl hb =>
    have hp := ht.priced ho
    have ⟨_, hb'⟩ := exists_buys_of_price hp (amount - fee.inside amount) d
    have hfee := hc.inside_mono hle
    have hbought := buys_mono hp hb' hb (fee.sub_inside_mono hle)
    exact .inr ⟨_, fill_of_le ho hn (hle.trans hl) hb', rfl, hle, min_le_min_right _ hbought, hfee,
      DynamicFee.protocolCut_mono hs hfee⟩

namespace Walk

-- A walk that another one is ahead of, with no less in any of its totals.
structure Trails (d : Direction) (u w : Walk) : Prop where
  active      : d.reaches u.active w.active
  touched     : u.touched <:+ w.touched
  amountOut   : u.total (·.amountOut) ≤ w.total (·.amountOut)
  fee         : u.total (·.fee) ≤ w.total (·.fee)
  protocolFee : u.total (·.protocolFee) ≤ w.total (·.protocolFee)

theorem Trails.refl (d : Direction) (w : Walk) : Trails d w w :=
  ⟨reaches_refl .., List.suffix_rfl, le_rfl, le_rfl, le_rfl⟩

theorem Trails.trans (h : Trails d u v) (h' : Trails d v w) : Trails d u w where
  active      := reaches_trans h.active h'.active
  touched     := h.touched.trans h'.touched
  amountOut   := h.amountOut.trans h'.amountOut
  fee         := h.fee.trans h'.fee
  protocolFee := h.protocolFee.trans h'.protocolFee

-- The same walk with another input left.
def withLeft (w : Walk) (left : Int) : Walk := { w with left }

-- The walk on the left is the other one with some of its input left.
def HasLess (u w : Walk) : Prop := ∃ left, 0 < left ∧ left ≤ w.left ∧ u = w.withLeft left

theorem touch_withLeft (w : Walk) (left : Int) (a : BinArray) :
    (w.withLeft left).touch a = (w.touch a).withLeft left := by
  unfold touch withLeft
  dsimp only
  split <;> rfl

theorem approach_withLeft (w : Walk) (left : Int) (a : BinArray) :
    (w.withLeft left).approach a = (w.approach a).withLeft left := by
  rw [approach, touch_withLeft]
  rfl

theorem record_withLeft (w : Walk) (left : Int) (b : Bin) (f : Fill) :
    (w.withLeft left).record b f = (w.record b f).withLeft (left - f.amountIn) := by
  unfold record
  split
  case isTrue h =>
    have hz : f.amountIn = 0 := by simpa [Fill.isEmpty] using h
    rw [hz, Int.sub_zero]
  case isFalse => rfl

theorem advance_withLeft (hl : 0 < left) (hw : 0 < w.left) (d : Direction) :
    (w.withLeft left).advance d = (w.advance d).withLeft left := by
  rw [advance, advance, if_pos hw]
  exact if_pos hl

@[simp] theorem total_withLeft (w : Walk) (left : Int) (part : Fill → Int) :
    (w.withLeft left).total part = w.total part := rfl

-- The last fill of a walk may be less than what another one does there before it goes on.
theorem trails_record (hne : f.isEmpty = false) (hne' : g.isEmpty = false) (h : f.AtMost g)
    (w : Walk) (left : Int) (b : Bin) (d : Direction) :
    Trails d ((w.record b f).withLeft left) ((w.record b g).advance d) := by
  constructor
  case active =>
    simpa [active_record, withLeft] using reaches_active_advance (w.record b g) d
  case touched     => simp [withLeft]
  case amountOut   => simpa [total_record hne, total_record hne'] using h.amountOut
  case fee         => simpa [total_record hne, total_record hne'] using h.fee
  case protocolFee => simpa [total_record hne, total_record hne'] using h.protocolFee

section Tradable

variable (hu : ∀ a ∈ r.arrays, ∀ b ∈ a.bins, b.Unsigned)
  (ht : ∀ a ∈ r.arrays, ∀ b ∈ a.bins, b.Tradable r.direction) (hc : fee.Charges)
  (hs : 0 ≤ fee.parameters.protocolShare)

theorem track_of_goes (hf : ∀ bin, w.fee.track bin = fee.track bin) (h : Goes r w w') :
    ∀ bin, w'.fee.track bin = fee.track bin := by
  cases round_of_step h.right
  case fill => simpa using hf
  case jump => simpa using hf

include hc hs

include hu in
theorem trails_of_goes (hf : ∀ bin, w.fee.track bin = fee.track bin) (h : Goes r w w') :
    Trails r.direction w w' where
  active      := reaches_active_of_goes h
  touched     := suffix_touched_of_goes h
  amountOut   := total_le_of_goes h fun ha hb hfill =>
    (within_of_fill hu hc hf h.left ha hb hfill).amountOut_nonneg
  fee         := total_le_of_goes h fun ha hb hfill =>
    (within_of_fill hu hc hf h.left ha hb hfill).fee_nonneg
  protocolFee := total_le_of_goes h fun ha hb hfill => by
    have hin := within_of_fill hu hc hf h.left ha hb hfill
    rw [Bin.protocolFee_of_fill hfill, hf]
    exact DynamicFee.protocolCut_nonneg hs hin.fee_nonneg

include ht in
-- With less input left a round does the same, or it is the last one and falls behind.
theorem HasLess.exists_goes (hless : HasLess u w) (hf : ∀ bin, w.fee.track bin = fee.track bin)
    (h : Goes r w w') :
    ∃ u', Goes r u u' ∧ (HasLess u' w' ∨ u'.left ≤ 0 ∧ Trails r.direction u' w') := by
  obtain ⟨left, hl, hle, rfl⟩ := hless
  cases round_of_step h.right
  case jump index array hn ha hi =>
    have hj := step_of_jump (w := w.withLeft left) hn ha hi
    rw [approach_withLeft] at hj
    exact ⟨_, ⟨hl, hj⟩, .inl ⟨left, hl, by simpa using hle, rfl⟩⟩
  case fill array bin g hn ha hb hfill =>
    have hbt := BinArray.forall_bin ht ha hb
    have hfill' := hf w.active ▸ hfill
    have hround {f} (hf' : bin.fill (fee.track w.active) left r.direction = .ok f) :
        Goes r (w.withLeft left) ((((w.withLeft left).approach array).record bin f).advance
          r.direction) :=
      ⟨hl, step_of_round (.fill (w := w.withLeft left) hn ha hb (hf w.active ▸ hf'))⟩
    cases Bin.exists_fill_of_le hbt (hc.track _) hs hl hle hfill'
    case inl hsame =>
      have ⟨hf', hlt⟩ := hsame
      have hleft : 0 < left - g.amountIn := by omega
      refine ⟨_, hround hf', .inl ⟨left - g.amountIn, hleft, by simp; omega, ?_⟩⟩
      rw [approach_withLeft, record_withLeft, advance_withLeft hleft (by simp; omega)]
    case inr hless =>
      have ⟨f, hf', hin, hmost⟩ := hless
      have hne : f.isEmpty = false := by simp [Fill.isEmpty]; omega
      have hne' : g.isEmpty = false := by have := hmost.amountIn; simp [Fill.isEmpty]; omega
      have hz : ¬0 < ((w.approach array).withLeft left |>.record bin f).left := by
        simp [withLeft, hin]
      refine ⟨_, hround hf', .inr ⟨by simp [withLeft, hin], ?_⟩⟩
      rw [approach_withLeft, advance_of_left hz, record_withLeft]
      exact trails_record hne hne' hmost ..

include hu ht in
-- Both go on together until the last round of the walk with less input, and what comes after that
-- only adds to the other one.
theorem exists_run_withLeft (hf : ∀ bin, w.fee.track bin = fee.track bin) (hl : 0 < left)
    (hle : left ≤ w.left) (h : run r w = .ok w') :
    ∃ u, run r (w.withLeft left) = .ok u ∧ Trails r.direction u w' := by
  have hless : HasLess (w.withLeft left) w := ⟨left, hl, hle, rfl⟩
  exact exists_run_of_simulates track_of_goes (fun ⟨_, hl, hle, _⟩ => hl.trans_le hle)
    (fun hf hless hg => hless.exists_goes ht hc hs hf hg)
    (fun hf htrails hg => htrails.trans (trails_of_goes hu hc hs hf hg)) hf hless h

end Tradable

theorem covers_of_mem_filled (h : Reached r s w) (hf : s.filled = []) :
    ∀ g ∈ w.filled, r.Covers g.id := by
  induction h
  case refl         => simp [hf]
  case tail _ hg hi =>
    cases round_of_step hg.right
    case jump => simpa using hi
    case fill hn _ _ _ =>
      rw [filled_advance]
      refine forall_mem_filled_record (fun _ => ?_) (by simpa using hi)
      simpa using Route.covers_of_nextArray hn

-- A walk fills no more bins than the bitmaps mark.
theorem length_filled_le (h : Reached r s w) (hf : s.filled = []) (ht : s.touched = []) :
    w.filled.length ≤ Route.longest := by
  have hsub : w.filled.map (·.id) ⊆
      binsFrom (BinArray.lowest Extension.lowest) (BinArray.highest Extension.highest) := by
    intro id hid
    obtain ⟨g, hg, rfl⟩ := List.mem_map.mp hid
    have ⟨_, _⟩ := Route.bounds_of_covers (covers_of_mem_filled h hf g hg)
    rw [mem_binsFrom]
    simp only [BinArray.indexOf, BinArray.lowest, BinArray.highest] at *
    omega
  have hle := (List.subperm_of_subset (traced_of_reached h hf ht).nodup_ids hsub).length_le
  rw [List.length_map, binsFrom, List.length_map, List.length_range] at hle
  exact hle.trans_eq (by decide)

theorem total_amountIn_le (hu : ∀ a ∈ r.arrays, ∀ b ∈ a.bins, b.Unsigned)
    (ht : ∀ a ∈ r.arrays, ∀ b ∈ a.bins, b.Tradable r.direction) (hc : s.fee.Charges)
    (h : Reached r s w) (hf : s.filled = []) (hn : s.touched = []) :
    w.total (·.amountIn) ≤ Route.longest * Bin.most := by
  have hfill : ∀ x ∈ w.filled.map (·.fill.amountIn), x ≤ Bin.most := by
    intro x hx
    obtain ⟨g, hg, rfl⟩ := List.mem_map.mp hx
    have hgen := (traced_of_reached h hf hn).genuine g hg
    have ⟨left, hl, hfill⟩ := hgen.input
    have ⟨c, hcap, _, hle⟩ := Bin.exists_capacity (hgen.of_forall hu) (hgen.of_forall ht)
      (hc.track g.id)
    have ⟨f, hf, hin⟩ := Bin.fill_of_capacity (hgen.of_forall hu) (hgen.of_forall ht) hcap
      (le_of_lt hl)
    cases hf.symm.trans hfill
    exact hin ▸ (min_le_right ..).trans hle
  calc w.total (·.amountIn)
    _ ≤ w.filled.length * Bin.most := by
      simpa [total, sumOf_eq_sum] using List.sum_le_card_nsmul _ _ hfill
    _ ≤ Route.longest * Bin.most := by
      have := length_filled_le h hf hn
      exact mul_le_mul_of_nonneg_right (by exact_mod_cast this) (by decide)

end Walk

namespace Pool

-- A walk that runs to its end has a quote.
theorem exists_quote_of_run (hu : p.Unsigned arrays)
    (ht : ∀ a ∈ arrays, ∀ b ∈ a.bins, b.Tradable d) (ha : 0 < amount) (hs : 0 ≤ slippage)
    (hm : slippage ≤ DynamicFee.basisPoints)
    (hrun : Walk.run (.of p e arrays d) (.start p amount now) = .ok u) :
    ∃ impact, p.quote e arrays amount d slippage now = .ok (u.answer amount slippage impact) := by
  have hc := hu.charges amount now
  have ⟨hw, hz⟩ := Walk.reached_of_run hrun
  have htr := Walk.traced_of_reached hw rfl rfl
  have hl := Walk.left_nonneg_of_reached hu.bins hc hw rfl rfl (le_of_lt ha)
  have hin : u.total (·.amountIn) + u.left = amount := htr.conserved
  have hmost := Walk.total_amountIn_le hu.bins ht hc hw rfl rfl
  have ⟨q, hq⟩ : ∃ q, u.quote amount slippage d = .ok q :=
    Walk.exists_quote hu.bins ht hc htr rfl (by omega) ha (by omega)
  have ⟨_, _, impact, _, _, _, he⟩ := Walk.exists_of_quote hq
  refine ⟨impact, ?_⟩
  rw [quote_eq_bind (le_of_lt ha) hs hm, hrun, ←he]
  exact hq

-- A smaller input has a quote wherever a larger one has, and none of its amounts is larger. Its walk
-- ends no farther on, and the arrays that it touches are the first ones of the other.
theorem quote_mono (hu : p.Unsigned arrays) (hs : 0 ≤ p.fees.protocolShare)
    (ht : ∀ a ∈ arrays, ∀ b ∈ a.bins, b.Tradable d) (ha : 0 < amount) (hle : amount ≤ larger)
    (hq : p.quote e arrays larger d slippage now = .ok q) :
    ∃ q', p.quote e arrays amount d slippage now = .ok q' ∧
      q'.amountOut ≤ q.amountOut ∧ q'.minOut ≤ q.minOut ∧ q'.fee ≤ q.fee ∧
      q'.protocolFee ≤ q.protocolFee ∧
      (∃ i j, q'.endBin = some i ∧ q.endBin = some j ∧ d.reaches i j) ∧
      q'.arrayIndexes <+: q.arrayIndexes ∧ q'.arrayKeys <+: q.arrayKeys := by
  have hc := hu.charges larger now
  have ⟨_, hs₀, hs₁, w, hrun, hqw⟩ := exists_walk_of_quote hq
  have ⟨_, _, impact, _, _, _, he⟩ := Walk.exists_of_quote hqw
  have ⟨u, hrun', htrails⟩ := Walk.exists_run_withLeft (r := .of p e arrays d) hu.bins ht hc
    (by simpa) (fun _ => rfl) ha hle hrun
  replace hrun' : Walk.run (.of p e arrays d) (.start p amount now) = .ok u := hrun'
  have ⟨_, hq'⟩ := exists_quote_of_run hu ht ha hs₀ hs₁ hrun'
  have hslip : 0 ≤ DynamicFee.basisPoints - slippage := sub_nonneg.mpr hs₁
  have hmin := mul_le_mul_of_nonneg_right htrails.amountOut hslip
  have htouched := List.reverse_prefix.mpr htrails.touched
  subst he
  exact ⟨_, hq', htrails.amountOut, Int.ediv_le_ediv DynamicFee.basisPoints_pos hmin, htrails.fee,
    htrails.protocolFee, ⟨_, _, rfl, rfl, htrails.active⟩, htouched.map _, htouched.filterMap _⟩

-- The larger input goes on to the second array, the smaller one ends in the first.
theorem quote_mono_sparse :
    sparse.Unsigned sparseArrays ∧ 0 ≤ sparse.fees.protocolShare ∧
    (∀ a ∈ sparseArrays, ∀ b ∈ a.bins, b.Tradable .xToY) ∧
    ∃ q q', sparse.quote (some sparseExtension) sparseArrays 500 .xToY 50 1000 = .ok q ∧
      q.arrayIndexes = [1, -515] ∧
      sparse.quote (some sparseExtension) sparseArrays 101 .xToY 50 1000 = .ok q' ∧
      q'.amountOut ≤ q.amountOut ∧ q'.fee ≤ q.fee ∧ q'.arrayIndexes <+: q.arrayIndexes := by
  have hs : 0 ≤ sparse.fees.protocolShare := by decide
  have hok : (sparse.quote (some sparseExtension) sparseArrays 500 .xToY 50 1000).map
      (·.arrayIndexes) = .ok [1, -515] := by decide +kernel
  have ⟨q, hq, hout⟩ := exists_of_map_eq_ok hok
  have ⟨q', hq', hle, _, hfee, _, _, harrays, _⟩ := quote_mono unsigned_sparse hs tradable_sparse
    (show 0 < 101 by decide) (by decide) hq
  exact ⟨unsigned_sparse, hs, tradable_sparse, q, q', hq, hout, hq', hle, hfee, harrays⟩

end Pool

end BinMarket
