import BinMarket.Proofs.Swap.Monotone

/-!
Quotes of a pool that charges more. For the same output a bin takes more of the input, so a walk at
dearer fees is left with less from bin to bin. It never gets past the walk at the other fees, and it
has never given out more.
-/

namespace BinMarket

open Direction

variable {p : Pool} {e : Option Extension} {arrays : List BinArray} {r : Route} {u v w : Walk}
  {array : BinArray} {b : Bin} {fee dearer : DynamicFee} {d : Direction} {f g : Fill}
  {base control bin amount larger slippage now : Int} {q : SwapQuote}

-- The same pool with other fee factors.
def Pool.charging (p : Pool) (base control : Int) : Pool :=
  { p with fees := { p.fees with baseFactor := base, variableControl := control } }

namespace DynamicFee

-- The same fee with other fee factors.
def charging (f : DynamicFee) (base control : Int) : DynamicFee :=
  { f with parameters := { f.parameters with baseFactor := base, variableControl := control } }

@[simp] theorem track_charging (f : DynamicFee) (base control bin : Int) :
    (f.charging base control).track bin = (f.track bin).charging base control := rfl

@[simp] theorem refresh_charging (f : DynamicFee) (base control active now : Int) :
    (f.charging base control).refresh active now =
      (f.refresh active now).charging base control := by
  simp only [refresh, apply_ite (charging · base control)]
  rfl

theorem variableRate_le_charging (h : fee.parameters.variableControl ≤ control) :
    fee.variableRate ≤ (fee.charging base control).variableRate := by
  by_cases hz : fee.parameters.variableControl ≤ 0
  case pos =>
    rw [variableRate, if_pos hz]
    exact variableRate_nonneg _
  case neg =>
    have hc : ¬(fee.charging base control).parameters.variableControl ≤ 0 :=
      fun hc => hz (h.trans hc)
    rw [variableRate, variableRate, if_neg hz, if_neg hc]
    have := mul_le_mul_of_nonneg_right h (mul_self_nonneg (fee.state.accumulator * fee.binStep))
    exact Int.ediv_le_ediv (by decide) (by simp only [charging]; omega)

-- Factors that are no smaller make no rate smaller, at whatever distance.
theorem rate_le_charging (hs : 0 ≤ fee.binStep) (hb : fee.parameters.baseFactor ≤ base)
    (hv : fee.parameters.variableControl ≤ control) :
    fee.rate ≤ (fee.charging base control).rate := by
  have hbase : fee.baseRate ≤ (fee.charging base control).baseRate := by
    have := mul_le_mul_of_nonneg_right hb hs
    simp only [baseRate, charging]
    omega
  exact min_le_min_right _ (add_le_add hbase (variableRate_le_charging hv))

end DynamicFee

namespace Bin

variable (hu : b.Unsigned) (ht : b.Tradable d) (hc : fee.Charges)
include hu ht hc

-- A bin that has something to sell takes some of any input.
theorem amountIn_pos_of_fill (ha : 0 < amount) (ho : b.output d ≠ 0)
    (h : b.fill fee amount d = .ok f) : 0 < f.amountIn := by
  cases filling_of_fill h
  case nothing hz => contradiction
  case partly     => exact ha
  case drained hn _ =>
    have ⟨_, hn', hpos, _⟩ := exists_netForAll hu ht ho
    cases hn'.symm.trans hn
    have := hc.onTop_nonneg hpos.le
    dsimp only
    omega

theorem total_record_amountOut (ha : 0 < amount) (h : b.fill fee amount d = .ok f) (w : Walk) :
    (w.record b f).total (·.amountOut) = f.amountOut + w.total (·.amountOut) := by
  by_cases ho : b.output d = 0
  case pos =>
    cases (fill_of_output_eq_zero ho).symm.trans h
    simp [Walk.record, Fill.isEmpty]
  case neg =>
    have := amountIn_pos_of_fill hu ht hc ha ho h
    exact Walk.total_record (by simp [Fill.isEmpty]; omega) w b _

omit hc in
-- At a dearer fee and with no more input a bin gives no more. It takes all of the input, or else no
-- less than at the other fee.
theorem exists_fill_of_rate_le (hc : dearer.Charges) (hr : fee.rate ≤ dearer.rate) (ha : 0 < amount)
    (hle : amount ≤ larger) (hg : b.fill fee larger d = .ok g) :
    ∃ f, b.fill dearer amount d = .ok f ∧ f.amountOut ≤ g.amountOut ∧
      (f.amountIn = amount ∨ f.amountIn < amount ∧ g.amountIn ≤ f.amountIn) := by
  cases filling_of_fill hg
  case nothing ho => exact ⟨{}, fill_of_output_eq_zero ho, le_rfl, .inr ⟨ha, le_rfl⟩⟩
  case drained net ho hn hlt =>
    have htop := hc.onTop_le_of_rate_le hr (hu.netForAll_nonneg hn)
    by_cases hl : net + dearer.onTop net < amount
    case pos => exact ⟨_, fill_of_lt ho hn hl, le_rfl, .inr ⟨hl, by dsimp only; omega⟩⟩
    case neg =>
      have ⟨_, hb⟩ := exists_buys_of_price (ht.priced ho) (amount - dearer.inside amount) d
      exact ⟨_, fill_of_le ho hn (not_lt.mp hl) hb, min_le_right .., .inl rfl⟩
  case partly net bought ho hn hl hb =>
    have hp := ht.priced ho
    have htop := hc.onTop_le_of_rate_le hr (hu.netForAll_nonneg hn)
    have ⟨_, hb'⟩ := exists_buys_of_price hp (amount - dearer.inside amount) d
    have hnet : amount - dearer.inside amount ≤ larger - fee.inside larger := by
      have := DynamicFee.inside_le_of_rate_le hr ha.le
      have := fee.sub_inside_mono hle
      omega
    exact ⟨_, fill_of_le ho hn (by omega) hb', min_le_min_right _ (buys_mono hp hb' hb hnet),
      .inl rfl⟩

end Bin

namespace Walk

-- The walk on the left is at the same bin at dearer fees, with no more left and no more given out.
structure Poorer (dearer : DynamicFee) (u w : Walk) : Prop where
  active    : u.active = w.active
  some_left : 0 < u.left
  left      : u.left ≤ w.left
  amountOut : u.total (·.amountOut) ≤ w.total (·.amountOut)
  fee       : ∀ bin, u.fee.track bin = dearer.track bin

-- The walk on the left is no farther than the other one, and it has given out no more.
structure Lags (d : Direction) (u w : Walk) : Prop where
  active    : d.reaches u.active w.active
  amountOut : u.total (·.amountOut) ≤ w.total (·.amountOut)

namespace Poorer

theorem approach (h : Poorer dearer u w) (a : BinArray) :
    Poorer dearer (u.approach a) (w.approach a) where
  active    := by simpa using h.active
  some_left := by simpa using h.some_left
  left      := by simpa using h.left
  amountOut := by simpa using h.amountOut
  fee       := by simpa using h.fee

theorem jump (h : Poorer dearer u w) (id : Int) :
    Poorer dearer { u with active := id } { w with active := id } where
  active    := rfl
  some_left := h.some_left
  left      := h.left
  amountOut := h.amountOut
  fee       := h.fee

variable (h : Poorer dearer u w)
  (hout : (u.record b f).total (·.amountOut) ≤ (w.record b g).total (·.amountOut))
include h hout

-- A fill that leaves some of the input to the one walk leaves no less to the other.
theorem fill (hlt : f.amountIn < u.left) (hge : g.amountIn ≤ f.amountIn) (d : Direction) :
    Poorer dearer ((u.record b f).advance d) ((w.record b g).advance d) := by
  have hl := h.left
  have hu : 0 < (u.record b f).left := by simp; omega
  have hw : 0 < (w.record b g).left := by simp; omega
  constructor
  case active    => rw [active_advance hu, active_advance hw, active_record, active_record, h.active]
  case some_left => simpa using hu
  case left      => simp; omega
  case amountOut => simpa using hout
  case fee       => simpa using h.fee

-- A fill that takes the rest of the input ends the one walk where the other one may go on.
theorem lags_fill (hall : f.amountIn = u.left) (d : Direction) :
    Lags d ((u.record b f).advance d) ((w.record b g).advance d) := by
  have hz : ¬0 < (u.record b f).left := by simp [hall]
  constructor
  case active    =>
    rw [advance_of_left hz, active_record, h.active, ←active_record w b g]
    exact reaches_active_advance ..
  case amountOut => simpa using hout

end Poorer

section Tradable

variable (hu : ∀ a ∈ r.arrays, ∀ b ∈ a.bins, b.Unsigned)
  (ht : ∀ a ∈ r.arrays, ∀ b ∈ a.bins, b.Tradable r.direction) (hc : fee.Charges)
  (hc' : dearer.Charges) (hr : ∀ bin, (fee.track bin).rate ≤ (dearer.track bin).rate)
include hu hc

theorem Lags.goes (h : Lags r.direction u w) (hf : ∀ bin, w.fee.track bin = fee.track bin)
    (hg : Goes r w v) : Lags r.direction u v where
  active    := reaches_trans h.active (reaches_active_of_goes hg)
  amountOut := h.amountOut.trans <| total_le_of_goes hg fun ha hb hfill =>
    (within_of_fill hu hc hf hg.left ha hb hfill).amountOut_nonneg

include ht hc' hr

-- Both fill the same bin or jump to the same array, and the walk at dearer fees ends there or is
-- left with no more again.
theorem Poorer.exists_goes (h : Poorer dearer u w) (hf : ∀ bin, w.fee.track bin = fee.track bin)
    (hg : Goes r w v) :
    ∃ u', Goes r u u' ∧ (Poorer dearer u' v ∨ u'.left ≤ 0 ∧ Lags r.direction u' v) := by
  cases round_of_step hg.right
  case jump index array hn hs hi =>
    rw [←h.active] at hn hi
    exact ⟨_, ⟨h.some_left, step_of_jump hn hs hi⟩, .inl ((h.approach array).jump _)⟩
  case fill array bin g hn hs hb hfill =>
    have hbu := BinArray.forall_bin hu hs hb
    have hbt := BinArray.forall_bin ht hs hb
    have hfill' := hf w.active ▸ hfill
    have ⟨f, hf', hout, hin⟩ := Bin.exists_fill_of_rate_le hbu hbt (hc'.track w.active)
      (hr w.active) h.some_left h.left hfill'
    have ha := h.approach array
    have htotal : ((u.approach array).record bin f).total (·.amountOut) ≤
        ((w.approach array).record bin g).total (·.amountOut) := by
      rw [Bin.total_record_amountOut hbu hbt (hc'.track _) h.some_left hf',
        Bin.total_record_amountOut hbu hbt (hc.track _) hg.left hfill']
      exact add_le_add hout ha.amountOut
    have hgoes : Goes r u (((u.approach array).record bin f).advance r.direction) := by
      rw [←h.active] at hn hs hb hf'
      exact ⟨h.some_left, step_of_round (.fill hn hs hb (h.fee _ ▸ hf'))⟩
    refine ⟨_, hgoes, ?_⟩
    cases hin
    case inl hall  => exact .inr ⟨by simp [hall], ha.lags_fill htotal (by simpa) _⟩
    case inr hsome => exact .inl (ha.fill htotal (by simpa using hsome.left) hsome.right _)

theorem Poorer.exists_run (h : Poorer dearer u w) (hf : ∀ bin, w.fee.track bin = fee.track bin)
    (hrun : run r w = .ok v) : ∃ u', run r u = .ok u' ∧ Lags r.direction u' v :=
  exists_run_of_simulates track_of_goes (fun h => h.some_left.trans_le h.left)
    (fun hf h hg => h.exists_goes hu ht hc hc' hr hf hg) (fun hf h hg => h.goes hu hc hf hg)
    hf h hrun

end Tradable

end Walk

namespace Pool

theorem Unsigned.charging (hu : p.Unsigned arrays) (hb : p.fees.baseFactor ≤ base) (control : Int) :
    (p.charging base control).Unsigned arrays := ⟨hu.base.trans hb, hu.bins⟩

theorem fee_start_charging (p : Pool) (base control amount now : Int) :
    (Walk.start (p.charging base control) amount now).fee =
      (Walk.start p amount now).fee.charging base control :=
  DynamicFee.refresh_charging (.ofPool p) base control p.activeId now

-- A trader never gains from higher fee factors. Where there is a quote there is still one, with no
-- more output, and it ends no farther on.
theorem quote_charging_le (hu : p.Unsigned arrays)
    (ht : ∀ a ∈ arrays, ∀ b ∈ a.bins, b.Tradable d) (hb : p.fees.baseFactor ≤ base)
    (hv : p.fees.variableControl ≤ control) (hq : p.quote e arrays amount d slippage now = .ok q) :
    ∃ q', (p.charging base control).quote e arrays amount d slippage now = .ok q' ∧
      q'.amountOut ≤ q.amountOut ∧ q'.minOut ≤ q.minOut ∧
      ∃ i j, q'.endBin = some i ∧ q.endBin = some j ∧ d.reaches i j := by
  have hc := hu.charges amount now
  have hu' := hu.charging hb control
  have hc' := hu'.charges amount now
  have ⟨_, hs₀, hs₁, w, hrun, hqw⟩ := exists_walk_of_quote hq
  have ⟨_, _, _, _, _, _, he⟩ := Walk.exists_of_quote hqw
  have hrate : ∀ bin, ((Walk.start p amount now).fee.track bin).rate ≤
      ((Walk.start (p.charging base control) amount now).fee.track bin).rate := by
    intro bin
    rw [fee_start_charging, DynamicFee.track_charging]
    exact DynamicFee.rate_le_charging hc.step (by simpa [Walk.start, DynamicFee.ofPool] using hb)
      (by simpa [Walk.start, DynamicFee.ofPool] using hv)
  have hpoorer : Walk.Poorer (Walk.start (p.charging base control) amount now).fee
      (.start (p.charging base control) amount now) (.start p amount now) :=
    ⟨rfl, amount_pos_of_quote hq, le_rfl, le_rfl, fun _ => rfl⟩
  obtain ⟨u, hrun', hlags⟩ := hpoorer.exists_run (r := .of p e arrays d) hu.bins ht hc hc' hrate
    (fun _ => rfl) hrun
  -- Fee factors are nothing that a route is read for.
  have hstep : ∀ w, Walk.step (.of (p.charging base control) e arrays d) w =
      Walk.step (.of p e arrays d) w := Walk.step_congr rfl (fun _ => rfl) fun _ => rfl
  obtain ⟨_, hq'⟩ := exists_quote_of_run hu' ht (amount_pos_of_quote hq) hs₀ hs₁
    ((Walk.run_congr hstep _).trans hrun')
  have hslip : 0 ≤ DynamicFee.basisPoints - slippage := sub_nonneg.mpr hs₁
  have hmin := mul_le_mul_of_nonneg_right hlags.amountOut hslip
  subst he
  exact ⟨_, hq', hlags.amountOut, Int.ediv_le_ediv DynamicFee.basisPoints_pos hmin, _, _, rfl, rfl,
    hlags.active⟩

-- At twenty times the base fee the first bin takes the whole input.
theorem quote_charging_le_sparse :
    sparse.Unsigned sparseArrays ∧ (∀ a ∈ sparseArrays, ∀ b ∈ a.bins, b.Tradable .xToY) ∧
    sparse.fees.baseFactor ≤ 200000 ∧ sparse.fees.variableControl ≤ 90000 ∧
    ∃ q q', sparse.quote (some sparseExtension) sparseArrays 102 .xToY 50 1000 = .ok q ∧
      q.endBin = some (-35981) ∧
      (sparse.charging 200000 90000).quote (some sparseExtension) sparseArrays 102 .xToY 50 1000 =
        .ok q' ∧ q'.endBin = some 75 ∧ q'.amountOut ≤ q.amountOut ∧ q'.minOut ≤ q.minOut := by
  have hb : sparse.fees.baseFactor ≤ 200000 := by decide
  have hv : sparse.fees.variableControl ≤ 90000 := by decide
  have hok : (sparse.quote (some sparseExtension) sparseArrays 102 .xToY 50 1000).map
      (·.endBin) = .ok (some (-35981)) := by decide +kernel
  have hok' : ((sparse.charging 200000 90000).quote (some sparseExtension) sparseArrays 102 .xToY
      50 1000).map (·.endBin) = .ok (some 75) := by decide +kernel
  have ⟨q, hq, hend⟩ := exists_of_map_eq_ok hok
  have ⟨q', hq', hout, hmin, _⟩ := quote_charging_le unsigned_sparse tradable_sparse hb hv hq
  rw [hq'] at hok'
  exact ⟨unsigned_sparse, tradable_sparse, hb, hv, q, q', hq, hend, hq', Except.ok.inj hok', hout,
    hmin⟩

end Pool

end BinMarket
