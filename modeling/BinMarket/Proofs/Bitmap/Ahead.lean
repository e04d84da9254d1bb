import BinMarket.Proofs.Bins
import BinMarket.Proofs.Bitmap.Exact
import BinMarket.Proofs.Bitmap.Upcoming
import Mathlib.Data.List.Sort

/-!
All arrays with liquidity on the way of a swap. Looking again from the bin past each array that is
found comes to every one of them in turn, so the arrays to fetch are the first of them.
-/

namespace BinMarket

variable {d : Direction} {p : Pool} {e : Option Extension} {active count i j k : Int} {n : Nat}

namespace Direction

-- Whether `j` comes after `i`.
def precedes (d : Direction) (i j : Int) : Prop :=
  match d with
  | xToY => j < i
  | yToX => i < j

theorem precedes_iff : d.precedes i j ↔ ¬d.reaches j i := by
  cases d <;> simp only [precedes, reaches, not_le]

instance : Std.Irrefl d.precedes where
  irrefl i := fun h => precedes_iff.mp h (reaches_refl d i)

instance : Std.Antisymm d.precedes where
  antisymm i j h h' := by
    cases d <;> exact absurd h (Int.not_lt.mpr (Int.le_of_lt h'))

-- The indexes from one to another in the order of the way.
def between (d : Direction) (i j : Int) : List Int :=
  match d with
  | xToY => (binsFrom j i).reverse
  | yToX => binsFrom i j

theorem mem_between : k ∈ d.between i j ↔ d.reaches i k ∧ d.reaches k j := by
  cases d
  case xToY => rw [between, List.mem_reverse, mem_binsFrom, and_comm]; rfl
  case yToX => exact mem_binsFrom

theorem pairwise_between (d : Direction) (i j : Int) : (d.between i j).Pairwise d.precedes := by
  cases d
  case xToY => exact List.pairwise_reverse.mpr (pairwise_binsFrom j i)
  case yToX => exact pairwise_binsFrom i j

end Direction

open Direction

namespace Pool

-- The last index that has a bit on the way.
def frontier (e : Option Extension) (d : Direction) : Int :=
  match e, d with
  | none, .xToY   => BinArray.inlineLowest
  | none, .yToX   => BinArray.inlineHighest
  | some _, .xToY => Extension.lowest
  | some _, .yToX => Extension.highest

theorem Covers.reaches_frontier (h : Covers e i) (d : Direction) : d.reaches i (frontier e d) := by
  cases e <;> cases d
  case none.xToY => exact h.left
  case none.yToX => exact h.right
  case some.xToY => exact h.left
  case some.yToX => exact h.right

-- The arrays with liquidity from an index on, in the order in which a swap comes to them.
def liquidAhead (p : Pool) (e : Option Extension) (d : Direction) (index : Int) : List Int :=
  (d.between index (frontier e d)).filter (p.isLiquid e)

theorem pairwise_liquidAhead (p : Pool) (e : Option Extension) (d : Direction) (index : Int) :
    (p.liquidAhead e d index).Pairwise d.precedes :=
  (pairwise_between ..).filter _

namespace WordsFit

variable (h : p.WordsFit e)
include h

theorem mem_liquidAhead : j ∈ p.liquidAhead e d i ↔ p.isLiquid e j = true ∧ d.reaches i j := by
  rw [liquidAhead, List.mem_filter, mem_between]
  constructor
  case mp  => exact fun ⟨⟨hr, _⟩, hl⟩ => ⟨hl, hr⟩
  case mpr => exact fun ⟨hl, hr⟩ => ⟨⟨hr, (h.covers_of_isLiquid hl).reaches_frontier d⟩, hl⟩

-- The nearest array is the first of those ahead, and the others are ahead of it.
theorem liquidAhead_of_some (hn : p.nextArray e d active = some j) :
    p.liquidAhead e d (BinArray.indexOf active) = j :: p.liquidAhead e d (d.after j) := by
  have ⟨_, hl, hr, hleast⟩ := h.nextArray_eq_some_iff.mp hn
  have hrest : (j :: p.liquidAhead e d (d.after j)).Pairwise d.precedes := by
    refine .cons (fun i hi => ?_) (pairwise_liquidAhead ..)
    exact precedes_iff.mpr (reaches_after_iff.mp (h.mem_liquidAhead.mp hi).right)
  refine (pairwise_liquidAhead ..).eq_of_mem_iff hrest fun i => ?_
  rw [List.mem_cons, h.mem_liquidAhead, h.mem_liquidAhead]
  constructor
  case mp =>
    intro ⟨hli, hri⟩
    by_cases hij : d.reaches i j
    case pos => exact .inl (reaches_antisymm hij (hleast i hli hri))
    case neg => exact .inr ⟨hli, reaches_after_iff.mpr hij⟩
  case mpr =>
    intro hor
    cases hor
    case inl he => exact he ▸ ⟨hl, hr⟩
    case inr hi => exact ⟨hi.left, reaches_trans hr (reaches_trans (reaches_after d j) hi.right)⟩

theorem liquidAhead_of_none (hn : p.nextArray e d active = none)
    (hc : ∀ i ∈ p.liquidAhead e d (BinArray.indexOf active), Covers e (BinArray.indexOf active)) :
    p.liquidAhead e d (BinArray.indexOf active) = [] := by
  refine List.eq_nil_iff_forall_not_mem.mpr fun i hi => ?_
  have ⟨hl, hr⟩ := h.mem_liquidAhead.mp hi
  cases h.nextArray_eq_none_iff.mp hn
  case inl hout  => exact hout (hc i hi)
  case inr hnone => exact hnone i hl hr

-- Induction on the length of the list. A search that starts where nothing has a bit finds nothing, so
-- each search has to start at a covered index as long as there is something ahead of it.
theorem upcoming_eq (n : Nat)
    (hc : ∀ i ∈ p.liquidAhead e d (BinArray.indexOf active), Covers e (BinArray.indexOf active)) :
    Locator.upcoming d (p.tiers e) n active =
      (p.liquidAhead e d (BinArray.indexOf active)).take n := by
  induction n generalizing active
  case zero      => rfl
  case succ n hi =>
    cases hn : p.nextArray e d active
    case none   => rw [Locator.upcoming_of_none hn, h.liquidAhead_of_none hn hc, List.take_nil]
    case some j =>
      have ⟨_, hl, _⟩ := h.nextArray_eq_some_iff.mp hn
      rw [Locator.upcoming_of_some hn, h.liquidAhead_of_some hn, List.take_succ_cons, hi,
        BinArray.indexOf_exit]
      rw [BinArray.indexOf_exit]
      intro i hi
      have ⟨hli, hri⟩ := h.mem_liquidAhead.mp hi
      exact covers_of_reaches (h.covers_of_isLiquid hl) (h.covers_of_isLiquid hli)
        (reaches_after d j) hri

end WordsFit

-- The arrays to fetch ahead of a swap are the first of all that hold liquidity on its way.
-- 1. Those on its way are all liquid arrays of the covered range from the active one on, in order
-- 2. From a covered start, as many of them are listed as were asked for and exist
-- 3. From any other start none is listed
-- 4. No array is listed twice or out of order
theorem arraysForSwap_complete (h : p.WordsFit e) (d : Direction) (count : Int) :
    let start := BinArray.indexOf p.activeId
    let ahead := p.liquidAhead e d start
    (∀ i, i ∈ ahead ↔ Covers e i ∧ p.isLiquid e i = true ∧ d.reaches start i) ∧
    ahead.Pairwise d.precedes ∧
    (Covers e start → p.arraysForSwap e d count = ahead.take count.toNat ∧
      ((p.arraysForSwap e d count).length : Int) = min (max count 0) ahead.length) ∧
    (¬Covers e start → p.arraysForSwap e d count = []) ∧
    (p.arraysForSwap e d count).Pairwise d.precedes := by
  intro start ahead
  have hlisted (hc : Covers e start) : p.arraysForSwap e d count = ahead.take count.toNat :=
    h.upcoming_eq count.toNat fun _ _ => hc
  have hnone (hc : ¬Covers e start) : p.arraysForSwap e d count = [] :=
    Locator.upcoming_of_none (nextArray_eq_none_of_not_covers hc)
  refine ⟨fun i => ?_, pairwise_liquidAhead .., fun hc => ⟨hlisted hc, ?_⟩, hnone, ?_⟩
  · rw [h.mem_liquidAhead]
    exact ⟨fun hi => ⟨h.covers_of_isLiquid hi.left, hi⟩, fun hi => hi.right⟩
  · rw [hlisted hc, List.length_take]
    omega
  · by_cases hc : Covers e start
    case pos => exact hlisted hc ▸ (pairwise_liquidAhead ..).sublist (List.take_sublist ..)
    case neg => exact hnone hc ▸ .nil

-- Below the active array there are an array of the pool's own bitmap and one of the extension.
theorem arraysForSwap_complete_sparse :
    sparse.WordsFit (some sparseExtension) ∧
    (sparse.arraysForSwap (some sparseExtension) .xToY 4).length = 2 ∧
    ∀ i, i ∈ sparse.arraysForSwap (some sparseExtension) .xToY 4 ↔
      Covers (some sparseExtension) i ∧ sparse.isLiquid (some sparseExtension) i = true ∧ i ≤ 1 := by
  have ⟨hmem, _, hlisted, _⟩ := arraysForSwap_complete wordsFit_sparse .xToY 4
  have ⟨htake, hlength⟩ := hlisted (by decide)
  have hlist : sparse.arraysForSwap (some sparseExtension) .xToY 4 = [1, -515] := by decide +kernel
  have hshort : (sparse.liquidAhead (some sparseExtension) .xToY
      (BinArray.indexOf sparse.activeId)).length ≤ Int.toNat 4 := by
    rw [hlist] at hlength
    change (2 : Int) = min (max 4 0) _ at hlength
    omega
  refine ⟨wordsFit_sparse, by rw [hlist]; rfl, fun i => ?_⟩
  rw [htake, List.take_of_length_le hshort]
  exact hmem i

end Pool

end BinMarket
