import BinMarket.Proofs.Swap.Accounts
import BinMarket.Proofs.Swap.Refinement
import BinMarket.Proofs.Swap.Tradable
import Mathlib.Algebra.BigOperators.Ring.List

/-!
What a walk can take in. An input is used up exactly when it is no more than the bins on the way
need to give their whole reserves, and what is missing is what the walk was left with.
-/

namespace BinMarket

open FixedPoint

variable {p : Pool} {e : Option Extension} {arrays : List BinArray} {r : Route} {w : Walk}
  {array : BinArray} {b : Bin} {fee : DynamicFee} {d : Direction}
  {amount slippage now bin c here : Int}

namespace Route

theorem capacityFrom_of_not_covers (hc : ¬r.Covers bin) : r.capacityFrom fee bin = .ok 0 := by
  rw [capacityFrom, dif_neg hc]

theorem capacityFrom_of_not_liquid (hc : r.Covers bin) (hq : r.isLiquid bin = false) :
    r.capacityFrom fee bin = r.capacityFrom fee (r.direction.after bin) := by
  rw [capacityFrom, dif_pos hc, hq]
  rfl

theorem capacityFrom_of_not_supplied (hc : r.Covers bin) (hq : r.isLiquid bin = true)
    (hs : r.supplied? (BinArray.indexOf bin) = none) : r.capacityFrom fee bin = .ok 0 := by
  rw [capacityFrom, dif_pos hc, if_pos hq, hs]

theorem capacityFrom_of_supplied (hc : r.Covers bin) (hq : r.isLiquid bin = true)
    (hs : r.supplied? (BinArray.indexOf bin) = some array) (hb : array.bin bin = .ok b)
    (hh : b.capacity (fee.track bin) r.direction = .ok here) :
    r.capacityFrom fee bin = (r.capacityFrom fee (r.direction.after bin)).map (here + ·) := by
  rw [capacityFrom, dif_pos hc, if_pos hq, hs]
  simp only [hb]
  change (b.capacity (fee.track bin) r.direction >>= fun here =>
    r.capacityFrom fee (r.direction.after bin) >>= fun rest => Except.ok (here + rest)) = _
  rw [hh]
  cases r.capacityFrom fee (r.direction.after bin) <;> rfl

-- How many bins the bitmaps mark at most.
def longest : Nat := 931840

theorem remaining_le (h : r.Covers bin) : r.remaining bin ≤ longest := by
  have hc := bounds_of_covers h
  simp only [BinArray.indexOf, Extension.lowest, Extension.highest] at hc
  cases hd : r.direction <;>
    simp only [remaining, hd, longest, BinArray.lowest, BinArray.highest, Extension.lowest,
      Extension.highest] <;> omega

section Tradable

variable (hu : ∀ a ∈ r.arrays, ∀ b ∈ a.bins, b.Unsigned)
  (ht : ∀ a ∈ r.arrays, ∀ b ∈ a.bins, b.Tradable r.direction) (hc : fee.Charges)
include hu ht hc

theorem exists_bin (hs : r.supplied? (BinArray.indexOf bin) = some array) :
    ∃ b here, array.bin bin = .ok b ∧ b.Unsigned ∧ b.Tradable r.direction ∧
      b.capacity (fee.track bin) r.direction = .ok here ∧ 0 ≤ here ∧ here ≤ Bin.most := by
  have hb := BinArray.bin_ok (BinArray.holds_iff.mpr (BinArray.index_of_find? hs).symm)
  have hu := BinArray.forall_bin hu hs hb
  have ht := BinArray.forall_bin ht hs hb
  have ⟨here, hh, hpos, hle⟩ := Bin.exists_capacity hu ht (hc.track bin)
  exact ⟨_, here, hb, hu, ht, hh, hpos, hle⟩

theorem exists_capacityFrom (bin : Int) : ∃ c, r.capacityFrom fee bin = .ok c ∧ 0 ≤ c ∧
    c ≤ r.remaining bin * Bin.most := by
  have hpos : ∀ n : Nat, (0 : Int) ≤ n * Bin.most := fun n =>
    mul_nonneg (Int.natCast_nonneg n) (by decide)
  induction hm : r.remaining bin using Nat.strongRecOn generalizing bin
  case ind m ih =>
    by_cases hb : r.Covers bin
    case neg => exact ⟨0, capacityFrom_of_not_covers hb, le_rfl, hpos _⟩
    case pos =>
      have hlt := hm ▸ remaining_after hb
      have ⟨rest, hr, hpos', hle⟩ := ih _ hlt (r.direction.after bin) rfl
      have hnext : ((r.remaining (r.direction.after bin) : Int) + 1) * Bin.most ≤ m * Bin.most :=
        mul_le_mul_of_nonneg_right (by omega) (by decide)
      rw [add_mul, one_mul] at hnext
      have hmost : 0 ≤ Bin.most := by decide
      cases hq : r.isLiquid bin
      case false => exact ⟨rest, (capacityFrom_of_not_liquid hb hq).trans hr, hpos', by omega⟩
      case true =>
        cases hs : r.supplied? (BinArray.indexOf bin)
        case none => exact ⟨0, capacityFrom_of_not_supplied hb hq hs, le_rfl, hpos _⟩
        case some array =>
          have ⟨b, here, hbin, _, _, hh, hpos'', hle'⟩ := exists_bin hu ht hc hs
          refine ⟨here + rest, ?_, by omega, by omega⟩
          rw [capacityFrom_of_supplied hb hq hs hbin hh, hr]
          rfl

theorem capacityFrom_bounds (hcap : r.capacityFrom fee bin = .ok c) :
    0 ≤ c ∧ c ≤ longest * Bin.most := by
  have ⟨c', hc', hpos, hle⟩ := exists_capacityFrom hu ht hc bin
  cases hc'.symm.trans hcap
  refine ⟨hpos, ?_⟩
  by_cases hb : r.Covers bin
  case neg =>
    cases (capacityFrom_of_not_covers hb).symm.trans hcap
    decide
  case pos =>
    have hn : (r.remaining bin : Int) ≤ longest := by exact_mod_cast remaining_le hb
    exact hle.trans (mul_le_mul_of_nonneg_right hn (by decide))

end Tradable

end Route

namespace Walk

-- How a walk ends that has `c` left to fill: it uses its input up, or it lacks the rest of it.
structure Ends (left c : Int) (o : Except Fault Walk) : Prop where
  enough : left ≤ c → ∃ w, o = .ok w ∧ w.left = 0
  short  : c < left → ∃ f, o = .error f ∧ f.shortfall? = some (left - c)

theorem Ends.of_mapError {o o' : Except Fault Walk} {left : Int} (h : Ends left c o)
    (he : o'.mapError Fault.unplaced = o.mapError Fault.unplaced) : Ends left c o' where
  enough := by
    intro hl
    have ⟨w, hw, hz⟩ := h.enough hl
    subst hw
    cases o'
    case ok w'   => cases he; exact ⟨w, rfl, hz⟩
    case error f => cases he
  short := by
    intro hl
    have ⟨f, hf, hs⟩ := h.short hl
    subst hf
    cases o'
    case ok w'    => cases he
    case error f' =>
      have hu : f'.unplaced = f.unplaced := Except.error.inj he
      refine ⟨f', rfl, ?_⟩
      rw [←Fault.shortfall?_unplaced, hu, Fault.shortfall?_unplaced, hs]

theorem Ends.of_shortfall {f : Fault} {left : Int} (hl : 0 < left)
    (hs : f.shortfall? = some left) : Ends left 0 (.error f) :=
  ⟨fun _ => by omega, fun _ => ⟨f, rfl, by simpa using hs⟩⟩

-- What a bin takes comes off the input and off the capacity alike.
theorem Ends.of_part {left rest : Int} (hleft : w.left = left - min left here) (hr : 0 ≤ rest)
    (h : 0 < w.left → Ends w.left rest (runPlain r w)) :
    Ends left (here + rest) (runPlain r w) := by
  by_cases hz : 0 < w.left
  case neg =>
    rw [runPlain_of_left hz]
    exact ⟨fun _ => ⟨w, rfl, by omega⟩, fun _ => by omega⟩
  case pos =>
    have hends := h hz
    refine ⟨fun _ => hends.enough (by omega), fun _ => ?_⟩
    have ⟨f, hrun, hs⟩ := hends.short (by omega)
    refine ⟨f, hrun, ?_⟩
    rw [hs]
    congr 1
    omega

theorem ends_of_left (hl : 0 ≤ w.left) (hz : ¬0 < w.left) (hc : 0 ≤ c) :
    Ends w.left c (runPlain r w) := by
  rw [runPlain_of_left hz]
  exact ⟨fun _ => ⟨w, rfl, by omega⟩, fun _ => by omega⟩

section Tradable

variable (hu : ∀ a ∈ r.arrays, ∀ b ∈ a.bins, b.Unsigned)
  (ht : ∀ a ∈ r.arrays, ∀ b ∈ a.bins, b.Tradable r.direction) (hc : fee.Charges)
include hu ht hc

-- A bin on the way takes its part of the input, and what the later bins take does not depend on it.
theorem exists_plainStep (hf : ∀ bin, w.fee.track bin = fee.track bin) (hl : 0 ≤ w.left)
    (hb : r.Covers w.active) (hq : r.isLiquid w.active = true)
    (hs : r.supplied? (BinArray.indexOf w.active) = some array) :
    ∃ here w', r.capacityFrom fee w.active =
        (r.capacityFrom fee (r.direction.after w.active)).map (here + ·) ∧
      plainStep r w = .ok w' ∧ (∀ bin, w'.fee.track bin = fee.track bin) ∧
      w'.left = w.left - min w.left here ∧
      (0 < w'.left → w'.active = r.direction.after w.active) := by
  have ⟨b, here, hbin, hbu, hbt, hh, _⟩ := Route.exists_bin hu ht hc hs
  have ⟨f, hfill, hin⟩ := Bin.fill_of_capacity hbu hbt hh hl
  let w' := ((w.approach array).record b f).advance r.direction
  have hv : visit r (w.approach array) b = .ok w' :=
    visit_eq_ok_iff.mpr ⟨f, by simpa [hf] using hfill, rfl⟩
  refine ⟨here, w', Route.capacityFrom_of_supplied hb hq hs hbin hh, ?_, ?_, ?_, ?_⟩
  · rw [plainStep_of_supplied hb hq hs, hbin]
    exact hv
  · simpa [w'] using hf
  · simp [w', hin]
  · intro hl'
    rw [left_advance] at hl'
    rw [active_advance hl', active_record, active_approach]

-- The induction is on the bins that remain. What is left and the capacity go down together, so the
-- one that is larger at the start is larger at the end.
theorem runPlain_ends (hf : ∀ bin, w.fee.track bin = fee.track bin) (hl : 0 ≤ w.left)
    (hcap : r.capacityFrom fee w.active = .ok c) : Ends w.left c (runPlain r w) := by
  induction hm : r.remaining w.active using Nat.strongRecOn generalizing w c
  case ind m ih =>
    by_cases hz : 0 < w.left
    case neg =>
      have ⟨c', hc', hpos, _⟩ := Route.exists_capacityFrom hu ht hc w.active
      cases hc'.symm.trans hcap
      exact ends_of_left hl hz hpos
    case pos =>
      rw [runPlain_eq_bind hz]
      by_cases hb : r.Covers w.active
      case neg =>
        cases (Route.capacityFrom_of_not_covers hb).symm.trans hcap
        rw [plainStep_of_not_covers hb]
        exact .of_shortfall hz rfl
      case pos =>
        have hlt := hm ▸ Route.remaining_after hb
        cases hq : r.isLiquid w.active
        case false =>
          rw [plainStep_of_not_liquid hb hq]
          rw [Route.capacityFrom_of_not_liquid hb hq] at hcap
          exact ih _ hlt (w := { w with active := r.direction.after w.active }) hf hl hcap rfl
        case true =>
          cases hs : r.supplied? (BinArray.indexOf w.active)
          case none =>
            cases (Route.capacityFrom_of_not_supplied hb hq hs).symm.trans hcap
            rw [plainStep_of_not_supplied hb hq hs]
            exact .of_shortfall hz rfl
          case some array =>
            have ⟨here, w', hfrom, hstep, hf', hleft, hactive⟩ :=
              exists_plainStep hu ht hc hf hl hb hq hs
            have ⟨rest, hr, hpos, _⟩ :=
              Route.exists_capacityFrom hu ht hc (r.direction.after w.active)
            rw [hfrom, hr] at hcap
            cases hcap
            rw [hstep]
            refine Ends.of_part hleft hpos fun hz' => ?_
            rw [←hactive hz'] at hr hlt
            exact ih _ hlt hf' (le_of_lt hz') hr rfl

end Tradable

section Answer

variable {s : Walk} (hu : ∀ a ∈ r.arrays, ∀ b ∈ a.bins, b.Unsigned)
  (ht : ∀ a ∈ r.arrays, ∀ b ∈ a.bins, b.Tradable r.direction)
include hu ht

-- The first bin that was filled has a price at which the whole input can be valued.
theorem exists_startBin (h : Traced r s w) (hf : w.filled ≠ []) :
    ∃ b, w.startBin? = some b ∧ b.Unsigned ∧ b.Tradable r.direction ∧ b.output r.direction ≠ 0 := by
  have hlast := List.getLast?_eq_some_getLast hf
  have hgen := h.genuine _ (List.getLast_mem hf)
  exact ⟨_, by rw [startBin?, hlast]; rfl, hgen.of_forall hu, hgen.of_forall ht,
    hgen.output_ne_zero⟩

variable (hc : s.fee.Charges)
include hc

-- Every fill takes in something, and it gives no more than its bin holds.
theorem total_amountOut_le_mul (h : Traced r s w) :
    w.total (·.amountOut) ≤ w.total (·.amountIn) * maxU128 := by
  calc w.total (·.amountOut)
    _ ≤ w.total (·.amountIn * maxU128) := by
      refine total_le_total fun g hg => ?_
      have hgen := h.genuine g hg
      have ⟨_, hw⟩ := within_of_genuine hu hc hgen
      have hne : g.fill.amountIn ≠ 0 := by simpa [Fill.isEmpty] using hgen.nonempty
      have hin : 1 ≤ g.fill.amountIn := by
        have := hw.amountIn_nonneg
        omega
      calc g.fill.amountOut
        _ ≤ g.bin.output r.direction  := hw.amountOut_le
        _ ≤ maxU128                   := (hgen.of_forall ht).reserve
        _ ≤ g.fill.amountIn * maxU128 := le_mul_of_one_le_left (by decide) hin
    _ = w.total (·.amountIn) * maxU128 := by
      simp only [total, sumOf_eq_sum, List.sum_map_mul_right]

theorem exists_quote (h : Traced r s w) (hs : s.left = amount) (hz : w.left = 0)
    (ha : 0 < amount) (hm : amount ≤ Route.longest * Bin.most) :
    ∃ q, w.quote amount slippage r.direction = .ok q := by
  have hin : w.total (·.amountIn) = amount := by
    have := h.conserved
    omega
  have hf : w.filled ≠ [] := by
    intro hf
    rw [total, hf, List.map_nil, sumOf_nil] at hin
    omega
  have hcw : w.fee.Charges := by
    have := h.fee 0 ▸ hc.track 0
    exact ⟨this.step, this.base⟩
  obtain ⟨b, hb, hbu, hbt, ho⟩ := exists_startBin hu ht h hf
  have hle := w.fee.inside_le (le_of_lt ha)
  have hge := hcw.inside_nonneg (le_of_lt ha)
  have hnet₀ : 0 ≤ amount - w.fee.inside amount := by omega
  obtain ⟨ideal, hi, hi₀, hi₁⟩ := Bin.exists_buys hbu hbt ho hnet₀
  have ho₀ := total_amountOut_nonneg hu hc h
  have ho₁ := total_amountOut_le_mul hu ht hc h
  rw [hin] at ho₁
  have hnet : (amount - w.fee.inside amount) * maxU128 ≤ amount * maxU128 :=
    mul_le_mul_of_nonneg_right (by omega) (by decide)
  have hmost : amount * maxU128 ≤ Route.longest * Bin.most * maxU128 :=
    mul_le_mul_of_nonneg_right hm (by decide)
  have hsize : (Route.longest * Bin.most * maxU128 : Int) < tenTo 200 := by decide +kernel
  have hnear : (w.total (·.amountOut) - ideal).natAbs < tenTo 200 := by omega
  obtain ⟨impact, himpact⟩ := exists_priceImpact (by decide) (by decide) hnear
  exact ⟨_, quote_of_startBin hb hi himpact⟩

end Answer

end Walk

namespace Pool

theorem quote_zero (hs : 0 ≤ slippage) (hm : slippage ≤ DynamicFee.basisPoints) :
    p.quote e arrays 0 d slippage now = .error .nothingFilled := by
  rw [quote_eq_bind le_rfl hs hm, Walk.run_of_left (lt_irrefl 0)]
  change (Walk.start p 0 now).quote 0 slippage d = _
  exact Walk.quote_of_filled_eq_nil rfl

theorem amount_pos_of_quote {q : SwapQuote} (h : p.quote e arrays amount d slippage now = .ok q) :
    0 < amount := by
  have ⟨ha, hs, hm, _⟩ := exists_walk_of_quote h
  by_contra hz
  obtain rfl : amount = 0 := by omega
  rw [quote_zero hs hm] at h
  contradiction

section Tradable

variable (hf : p.WordsFit e) (hu : p.Unsigned arrays)
  (ht : ∀ a ∈ arrays, ∀ b ∈ a.bins, b.Tradable d) (hcap : p.capacity e arrays d now = .ok c)
include hf hu ht hcap

theorem run_ends (ha : 0 ≤ amount) :
    Walk.Ends amount c (Walk.run (.of p e arrays d) (.start p amount now)) :=
  (Walk.runPlain_ends hu.bins ht (hu.charges amount now) (fun _ => rfl) ha hcap).of_mapError
    (Walk.run_eq_runPlain hf)

theorem exists_quote_of_le (ha : 1 ≤ amount) (hs : 0 ≤ slippage)
    (hm : slippage ≤ DynamicFee.basisPoints) (hle : amount ≤ c) :
    ∃ q, p.quote e arrays amount d slippage now = .ok q := by
  have hc := hu.charges amount now
  have ⟨w, hw, hz⟩ := (run_ends hf hu ht hcap (by omega)).enough hle
  have htraced := Walk.traced_of_reached (Walk.reached_of_run hw).left rfl rfl
  have ⟨_, hc'⟩ := Route.capacityFrom_bounds (r := .of p e arrays d) hu.bins ht hc hcap
  rw [quote_eq_bind (by omega) hs hm, hw]
  exact Walk.exists_quote hu.bins ht hc htraced rfl hz ha (hle.trans hc')

theorem exists_fault_of_lt (ha : 0 ≤ amount) (hs : 0 ≤ slippage)
    (hm : slippage ≤ DynamicFee.basisPoints) (hl : c < amount) :
    ∃ f, p.quote e arrays amount d slippage now = .error f ∧
      f.shortfall? = some (amount - c) := by
  have ⟨f, hrun, hshort⟩ := (run_ends hf hu ht hcap ha).short hl
  refine ⟨f, ?_, hshort⟩
  rw [quote_eq_bind ha hs hm, hrun]
  rfl

end Tradable

-- How much a pool takes in.
-- 1. There is a quote exactly for an input from one up to the capacity of the walk
-- 2. A larger input fails for want of liquidity, and what is missing is what exceeds the capacity
-- 3. Only an input of nothing finds no bin to start from
theorem quote_up_to_capacity (hf : p.WordsFit e) (hu : p.Unsigned arrays)
    (ht : ∀ a ∈ arrays, ∀ b ∈ a.bins, b.Tradable d) (ha : 0 ≤ amount) (hs : 0 ≤ slippage)
    (hm : slippage ≤ DynamicFee.basisPoints) (now : Int) :
    ∃ c, p.capacity e arrays d now = .ok c ∧
      ((∃ q, p.quote e arrays amount d slippage now = .ok q) ↔ 1 ≤ amount ∧ amount ≤ c) ∧
      (c < amount → ∃ f, p.quote e arrays amount d slippage now = .error f ∧
        f.shortfall? = some (amount - c)) ∧
      (p.quote e arrays amount d slippage now = .error .nothingFilled ↔ amount = 0) := by
  have ⟨c, hcap, hpos, _⟩ := Route.exists_capacityFrom (r := .of p e arrays d) hu.bins ht
    (hu.charges amount now) p.activeId
  have henough : 1 ≤ amount → amount ≤ c → ∃ q, p.quote e arrays amount d slippage now = .ok q :=
    fun h₁ hle => exists_quote_of_le hf hu ht hcap h₁ hs hm hle
  have hshort := exists_fault_of_lt hf hu ht hcap ha hs hm
  refine ⟨c, hcap, ⟨?_, fun ⟨h₁, hle⟩ => henough h₁ hle⟩, hshort, ⟨?_, ?_⟩⟩
  · intro ⟨q, hq⟩
    refine ⟨?_, ?_⟩
    · by_contra h
      rw [show amount = 0 by omega, quote_zero hs hm] at hq
      contradiction
    · by_contra h
      have ⟨f, hq', _⟩ := hshort (not_le.mp h)
      rw [hq'] at hq
      contradiction
  · intro hn
    by_contra hz
    by_cases hle : amount ≤ c
    case pos =>
      have ⟨q, hq⟩ := henough (by omega) hle
      rw [hq] at hn
      contradiction
    case neg =>
      have ⟨f, hq, hsome⟩ := hshort (not_le.mp hle)
      cases hq.symm.trans hn
      contradiction
  · rintro rfl
    exact quote_zero hs hm

theorem tradable_sparse : ∀ a ∈ sparseArrays, ∀ b ∈ a.bins, b.Tradable .xToY := by
  decide +kernel

theorem quote_up_to_capacity_sparse :
    sparse.WordsFit (some sparseExtension) ∧ sparse.Unsigned sparseArrays ∧
    (∀ a ∈ sparseArrays, ∀ b ∈ a.bins, b.Tradable .xToY) ∧
    sparse.capacity (some sparseExtension) sparseArrays .xToY 1000 = .ok 2113 ∧
    ∃ f, sparse.quote (some sparseExtension) sparseArrays 2114 .xToY 50 1000 = .error f ∧
      f.shortfall? = some 1 := by
  have hok : (sparse.quote (some sparseExtension) sparseArrays 2113 .xToY 50 1000).toBool = true :=
    by decide +kernel
  have hno : (sparse.quote (some sparseExtension) sparseArrays 2114 .xToY 50 1000).toBool = false :=
    by decide +kernel
  have ⟨c, hc, hq, _⟩ := quote_up_to_capacity wordsFit_sparse unsigned_sparse tradable_sparse
    (show (0 : Int) ≤ 2113 by decide) (show (0 : Int) ≤ 50 by decide) (by decide) 1000
  have ⟨c', hc', hq', hf, _⟩ := quote_up_to_capacity wordsFit_sparse unsigned_sparse tradable_sparse
    (show (0 : Int) ≤ 2114 by decide) (show (0 : Int) ≤ 50 by decide) (by decide) 1000
  cases hc.symm.trans hc'
  have hle : 2113 ≤ c := by
    cases h : sparse.quote (some sparseExtension) sparseArrays 2113 .xToY 50 1000
    case error f => rw [h] at hok; contradiction
    case ok q    => exact (hq.mp ⟨q, h⟩).right
  have hlt : c < 2114 := by
    by_contra h
    have ⟨q, hq⟩ := hq'.mpr ⟨by decide, not_lt.mp h⟩
    rw [hq] at hno
    contradiction
  obtain rfl : c = 2113 := by omega
  exact ⟨wordsFit_sparse, unsigned_sparse, tradable_sparse, hc, hf hlt⟩

end Pool

end BinMarket
