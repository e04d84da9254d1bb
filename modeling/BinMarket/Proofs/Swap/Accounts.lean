import BinMarket.Proofs.Arrays
import BinMarket.Proofs.Bitmap.Exact
import BinMarket.Proofs.Sums
import BinMarket.Proofs.Swap.Answer
import Mathlib.Algebra.Order.BigOperators.Group.List
import Mathlib.Data.List.Nodup
import Mathlib.Algebra.Order.Ring.Int

/-!
The accounts of a walk. Input is neither lost nor made up, and no bin gives more than it has, so the
totals of a quote are bounded by its input and by the reserves along its way.
-/

namespace BinMarket

open Direction

variable {p : Pool} {e : Option Extension} {arrays : List BinArray} {r : Route} {s w w' : Walk}
  {d : Direction} {amount slippage now index id i j k : Int} {q : SwapQuote} {a : BinArray}
  {b : Bin} {g : FilledBin} {part other : Fill → Int}

namespace Direction

-- The bins that a swap passes from one to another, both included.
def path : Direction → Int → Int → List Int
  | .xToY, i, j => binsFrom j i
  | .yToX, i, j => binsFrom i j

theorem mem_path : k ∈ d.path i j ↔ d.reaches i k ∧ d.reaches k j := by
  cases d <;> simp only [path, mem_binsFrom, reaches, and_comm]

end Direction

-- What holds for every bin at hand holds for those that a walk has filled.
theorem FilledBin.Genuine.of_forall {fee : DynamicFee} {P : Bin → Prop} (hg : g.Genuine r fee)
    (h : ∀ a ∈ r.arrays, ∀ b ∈ a.bins, P b) : P g.bin := by
  have ⟨a, hs, hb⟩ := hg.array
  exact BinArray.forall_bin h hs hb

-- The records that a swap reads hold no negative reserve, price or base fee.
structure Pool.Unsigned (p : Pool) (arrays : List BinArray) : Prop where
  base : 0 ≤ p.fees.baseFactor
  bins : ∀ a ∈ arrays, ∀ b ∈ a.bins, b.Unsigned

instance (p : Pool) (arrays : List BinArray) : Decidable (p.Unsigned arrays) :=
  decidable_of_iff (_ ∧ _) ⟨fun ⟨base, bins⟩ => ⟨base, bins⟩, fun ⟨base, bins⟩ => ⟨base, bins⟩⟩

theorem Pool.Unsigned.charges (h : p.Unsigned arrays) (amount now : Int) :
    (Walk.start p amount now).fee.Charges where
  step := by simpa [Walk.start, DynamicFee.ofPool] using le_of_lt p.binStep_pos
  base := by simpa [Walk.start, DynamicFee.ofPool] using h.base

theorem DynamicFee.sum_protocolCut_le (f : DynamicFee) (xs : List Int) :
    (xs.map f.protocolCut).sum ≤ f.protocolCut xs.sum := by
  induction xs
  case nil          => simp [protocolCut]
  case cons x xs hi =>
    rw [List.map_cons, List.sum_cons, List.sum_cons]
    exact (add_le_add_right hi _).trans (f.protocolCut_add_le ..)

namespace Walk

theorem total_le_total (h : ∀ g ∈ w.filled, part g.fill ≤ other g.fill) :
    w.total part ≤ w.total other :=
  List.sum_le_sum fun g hg => h g hg

theorem total_nonneg (h : ∀ g ∈ w.filled, 0 ≤ part g.fill) : 0 ≤ w.total part := by
  refine List.sum_nonneg fun x hx => ?_
  obtain ⟨g, hg, rfl⟩ := List.mem_map.mp hx
  exact h g hg

theorem within_of_fill {fee : DynamicFee} {f : Fill} (hu : ∀ a ∈ r.arrays, ∀ b ∈ a.bins, b.Unsigned)
    (hc : fee.Charges) (hf : ∀ bin, w.fee.track bin = fee.track bin) (hl : 0 < w.left)
    (ha : r.supplied? (BinArray.indexOf w.active) = some a) (hb : a.bin w.active = .ok b)
    (hfill : b.fill (w.fee.track w.active) w.left r.direction = .ok f) :
    f.Within w.left (b.output r.direction) := by
  rw [hf] at hfill
  exact (BinArray.forall_bin hu ha hb).fill_within (hc.track w.active) (le_of_lt hl) hfill

section Accounts

variable (hu : ∀ a ∈ r.arrays, ∀ b ∈ a.bins, b.Unsigned) (hc : s.fee.Charges)
include hu hc

theorem within_of_genuine (hg : g.Genuine r s.fee) :
    ∃ left, g.fill.Within left (g.bin.output r.direction) := by
  have ⟨left, hl, hf⟩ := hg.input
  exact ⟨left, (hg.of_forall hu).fill_within (hc.track g.id) (le_of_lt hl) hf⟩

-- A fill never takes more than what is left.
theorem left_nonneg_of_round (hf : ∀ bin, w.fee.track bin = s.fee.track bin) (hl : 0 < w.left)
    (hr : Round r w w') : 0 ≤ w'.left := by
  cases hr
  case fill array bin f hn hs hb hfill =>
    have := (within_of_fill hu hc hf hl hs hb hfill).amountIn_le
    simp only [left_advance, left_record, left_approach]
    omega
  case jump => simpa using le_of_lt hl

theorem left_nonneg_of_reached (h : Reached r s w) (hf : s.filled = []) (ht : s.touched = [])
    (hs : 0 ≤ s.left) : 0 ≤ w.left := by
  cases h
  case refl       => exact hs
  case tail hr hg =>
    have htr := traced_of_reached hr hf ht
    exact left_nonneg_of_round hu hc htr.fee hg.left (round_of_step hg.right)

theorem total_amountIn_nonneg (h : Traced r s w) : 0 ≤ w.total (·.amountIn) := by
  refine total_nonneg fun g hg => ?_
  have ⟨_, hw⟩ := within_of_genuine hu hc (h.genuine g hg)
  exact hw.amountIn_nonneg

theorem total_amountOut_nonneg (h : Traced r s w) : 0 ≤ w.total (·.amountOut) := by
  refine total_nonneg fun g hg => ?_
  have ⟨_, hw⟩ := within_of_genuine hu hc (h.genuine g hg)
  exact hw.amountOut_nonneg

theorem total_fee_nonneg (h : Traced r s w) : 0 ≤ w.total (·.fee) := by
  refine total_nonneg fun g hg => ?_
  have ⟨_, hw⟩ := within_of_genuine hu hc (h.genuine g hg)
  exact hw.fee_nonneg

theorem total_fee_le (h : Traced r s w) : w.total (·.fee) ≤ w.total (·.amountIn) := by
  refine total_le_total fun g hg => ?_
  have ⟨_, hw⟩ := within_of_genuine hu hc (h.genuine g hg)
  exact hw.fee_le

theorem total_protocolFee_nonneg (h : Traced r s w) (hs : 0 ≤ s.fee.parameters.protocolShare) :
    0 ≤ w.total (·.protocolFee) := by
  refine total_nonneg fun g hg => ?_
  have ⟨_, hw⟩ := within_of_genuine hu hc (h.genuine g hg)
  rw [(h.genuine g hg).protocolFee_eq]
  exact DynamicFee.protocolCut_nonneg hs hw.fee_nonneg

theorem amountOut_le_reserveOf (hg : g.Genuine r s.fee) :
    g.fill.amountOut ≤ BinArray.reserveOf r.arrays r.direction g.id := by
  have ⟨_, ha, hb⟩ := hg.array
  have ⟨_, hw⟩ := within_of_genuine hu hc hg
  rw [BinArray.reserveOf_eq ha hb]
  exact hw.amountOut_le

-- The bins that were filled are some of those on the way, each counted once.
theorem total_amountOut_le (h : Traced r s w) :
    w.total (·.amountOut) ≤
      sumOf (((r.direction.path s.active w.active).filter
        (BinArray.indexOf · ∈ w.touched.map (·.index))).map
          (BinArray.reserveOf r.arrays r.direction)) := by
  let ids := w.filled.map (·.id)
  have hsub : ids ⊆ (r.direction.path s.active w.active).filter
      (BinArray.indexOf · ∈ w.touched.map (·.index)) := by
    intro id hid
    obtain ⟨g, hg, rfl⟩ := List.mem_map.mp hid
    have ⟨a, ha, hi⟩ := h.noted g hg
    rw [List.mem_filter, mem_path, decide_eq_true_iff]
    exact ⟨⟨h.onward g hg, h.behind g hg⟩, List.mem_map.mpr ⟨a, ha, hi⟩⟩
  have ⟨ids', hperm, hsubl⟩ := List.subperm_of_subset h.nodup_ids hsub
  calc w.total (·.amountOut)
    _ ≤ (w.filled.map fun g => BinArray.reserveOf r.arrays r.direction g.id).sum :=
      List.sum_le_sum fun g hg => amountOut_le_reserveOf hu hc (h.genuine g hg)
    _ = (ids.map (BinArray.reserveOf r.arrays r.direction)).sum := by
      rw [List.map_map]
      rfl
    _ = (ids'.map (BinArray.reserveOf r.arrays r.direction)).sum := (hperm.map _).symm.sum_eq
    _ ≤ _ := by
      refine (hsubl.map _).sum_le_sum fun x hx => ?_
      obtain ⟨id, _, rfl⟩ := List.mem_map.mp hx
      exact BinArray.reserveOf_nonneg (fun a ha b hb => (hu a ha b hb).output_nonneg _) _

end Accounts

theorem total_protocolFee_le (h : Traced r s w) :
    w.total (·.protocolFee) ≤ s.fee.protocolCut (w.total (·.fee)) := by
  have hcut : ∀ g ∈ w.filled, g.fill.protocolFee = s.fee.protocolCut g.fill.fee :=
    fun g hg => (h.genuine g hg).protocolFee_eq
  calc w.total (·.protocolFee)
    _ = ((w.filled.map (·.fill.fee)).map s.fee.protocolCut).sum := by
      rw [List.map_map, total, sumOf_eq_sum]
      exact congrArg _ (List.map_congr_left hcut)
    _ ≤ s.fee.protocolCut (w.total (·.fee)) := s.fee.sum_protocolCut_le _

@[simp] theorem parameters_start (p : Pool) (amount now : Int) :
    (start p amount now).fee.parameters = p.fees := by
  simp [start, DynamicFee.ofPool]

theorem protocolCut_start (p : Pool) (amount now a : Int) :
    (start p amount now).fee.protocolCut a =
      a * p.fees.protocolShare / DynamicFee.basisPoints := by
  rw [DynamicFee.protocolCut, parameters_start]

theorem minOut_le {impact : Decimal} (h : 0 ≤ w.total (·.amountOut)) (hs : 0 ≤ slippage) :
    (w.answer amount slippage impact).minOut ≤ (w.answer amount slippage impact).amountOut := by
  refine Int.ediv_le_of_le_mul DynamicFee.basisPoints_pos (mul_le_mul_of_nonneg_left ?_ h)
  omega

end Walk

namespace Pool

-- The accounts of a quote.
-- 1. Throughout the walk, what the fills took in and what is left make up the input, no bin is
--    filled twice, and none gives more than its reserve
-- 2. The protocol's part is bounded by its share of the fee, the fee by the input, the minimum by
--    the output, and the output by the reserves of the touched arrays on the way
theorem quote_accounts (hu : p.Unsigned arrays) (hs : 0 ≤ p.fees.protocolShare)
    (hm : p.fees.protocolShare ≤ DynamicFee.basisPoints) (e : Option Extension) (d : Direction)
    (amount slippage now : Int) :
    (0 ≤ amount → ∀ w, Walk.Reached (.of p e arrays d) (.start p amount now) w →
      w.total (·.amountIn) + w.left = amount ∧ 0 ≤ w.left ∧ w.left ≤ amount ∧
      w.filled.Pairwise (fun g f => d.reaches (d.after f.id) g.id) ∧
      ∀ g ∈ w.filled,
        (∃ a, BinArray.find? arrays (BinArray.indexOf g.id) = some a ∧ a.bin g.id = .ok g.bin) ∧
        0 ≤ g.fill.amountOut ∧ g.fill.amountOut ≤ g.bin.output d) ∧
    ∀ q, p.quote e arrays amount d slippage now = .ok q →
      0 ≤ q.protocolFee ∧
      q.protocolFee ≤ q.fee * p.fees.protocolShare / DynamicFee.basisPoints ∧
      q.fee * p.fees.protocolShare / DynamicFee.basisPoints ≤ q.fee ∧ q.fee ≤ amount ∧
      0 ≤ q.minOut ∧ q.minOut ≤ q.amountOut ∧
      ∃ last, q.endBin = some last ∧
        q.amountOut ≤ sumOf (((d.path p.activeId last).filter
          (BinArray.indexOf · ∈ q.arrayIndexes)).map (BinArray.reserveOf arrays d)) := by
  have hb : ∀ a ∈ (Route.of p e arrays d).arrays, ∀ b ∈ a.bins, b.Unsigned := hu.bins
  have hc := hu.charges amount now
  constructor
  case left =>
    intro ha w hw
    have ht := Walk.traced_of_reached hw rfl rfl
    have hl := Walk.left_nonneg_of_reached hb hc hw rfl rfl ha
    have hin := Walk.total_amountIn_nonneg hb hc ht
    have hcons : w.total (·.amountIn) + w.left = amount := ht.conserved
    refine ⟨hcons, hl, by omega, ht.ordered, fun g hg => ⟨(ht.genuine g hg).array, ?_⟩⟩
    have ⟨_, hwg⟩ := Walk.within_of_genuine hb hc (ht.genuine g hg)
    exact ⟨hwg.amountOut_nonneg, hwg.amountOut_le⟩
  case right =>
    intro q hq
    have ⟨ha, hs₀, hs₁, w, hrun, hqw⟩ := exists_walk_of_quote hq
    have ⟨hw, _⟩ := Walk.reached_of_run hrun
    have ⟨_, _, impact, _, _, _, he⟩ := Walk.exists_of_quote hqw
    have ht := Walk.traced_of_reached hw rfl rfl
    have hl := Walk.left_nonneg_of_reached hb hc hw rfl rfl ha
    have hfee := Walk.total_fee_nonneg hb hc ht
    have hout := Walk.total_amountOut_nonneg hb hc ht
    have hcut := Walk.total_protocolFee_le ht
    rw [Walk.protocolCut_start] at hcut
    have hcons : w.total (·.amountIn) + w.left = amount := ht.conserved
    have hle := Walk.total_fee_le hb hc ht
    subst he
    refine ⟨?_, hcut, ?_, ?_, ?_, ?_, w.active, rfl, ?_⟩
    · exact Walk.total_protocolFee_nonneg hb hc ht (by rwa [Walk.parameters_start])
    · rw [←Walk.protocolCut_start p amount now]
      exact DynamicFee.protocolCut_le (by rwa [Walk.parameters_start]) hfee
    · exact le_trans hle (by omega)
    · exact Int.ediv_nonneg (mul_nonneg hout (by omega)) (by decide)
    · exact Walk.minOut_le hout hs₀
    · have := Walk.total_amountOut_le hb hc ht
      simp only [Walk.answer, List.map_reverse, List.mem_reverse]
      exact this

theorem unsigned_sparse : sparse.Unsigned sparseArrays := by
  decide +kernel

theorem quote_accounts_sparse :
    sparse.Unsigned sparseArrays ∧ 0 ≤ sparse.fees.protocolShare ∧
    sparse.fees.protocolShare ≤ DynamicFee.basisPoints ∧
    ∃ q, sparse.quote (some sparseExtension) sparseArrays 500 .xToY 50 1000 = .ok q ∧
      q.amountOut = 298 ∧ q.fee ≤ 500 ∧ q.minOut ≤ q.amountOut := by
  have hs : 0 ≤ sparse.fees.protocolShare := by decide
  have hm : sparse.fees.protocolShare ≤ DynamicFee.basisPoints := by decide
  have hq : (sparse.quote (some sparseExtension) sparseArrays 500 .xToY 50 1000).map
      (·.amountOut) = .ok 298 := by decide +kernel
  have ⟨_, haccounts⟩ :=
    quote_accounts unsigned_sparse hs hm (some sparseExtension) .xToY 500 50 1000
  cases h : sparse.quote (some sparseExtension) sparseArrays 500 .xToY 50 1000
  case error f => rw [h] at hq; cases hq
  case ok q =>
    rw [h] at hq
    have ⟨_, _, _, hfee, _, hmin, _⟩ := haccounts q h
    exact ⟨unsigned_sparse, hs, hm, q, rfl, Except.ok.inj hq, hfee, hmin⟩

end Pool

end BinMarket
