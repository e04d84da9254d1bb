import BinMarket.BinArray.Geometry
import BinMarket.Deposit.Plan
import Mathlib.Algebra.Order.Ring.Int
import Mathlib.Data.List.Range

/-!
Bins in a row. A range of bins ascends without a gap from its lowest bin to its highest.
-/

namespace BinMarket

variable {lowest highest : Int} {bins : List Int}

theorem binsFrom_eq_cons (h : lowest ≤ highest) :
    binsFrom lowest highest = lowest :: binsFrom (lowest + 1) highest := by
  obtain ⟨n, rfl⟩ : ∃ n : Nat, highest = lowest + n := ⟨(highest - lowest).toNat, by omega⟩
  have hl : (lowest + n - lowest + 1).toNat = n + 1 := by omega
  have hr : (lowest + n - (lowest + 1) + 1).toNat = n := by omega
  rw [binsFrom, binsFrom, hl, hr, List.range_succ_eq_map, List.map_cons, List.map_map]
  simp [Function.comp_def, add_assoc, add_comm (1 : Int)]

theorem binsFrom_eq_concat (h : lowest ≤ highest) :
    binsFrom lowest highest = binsFrom lowest (highest - 1) ++ [highest] := by
  obtain ⟨n, rfl⟩ : ∃ n : Nat, highest = lowest + n := ⟨(highest - lowest).toNat, by omega⟩
  have hl : (lowest + n - lowest + 1).toNat = n + 1 := by omega
  have hr : (lowest + n - 1 - lowest + 1).toNat = n := by omega
  rw [binsFrom, binsFrom, hl, hr, List.range_succ, List.map_append, List.map_singleton]

theorem head?_binsFrom (h : lowest ≤ highest) : (binsFrom lowest highest).head? = some lowest := by
  rw [binsFrom_eq_cons h, List.head?_cons]

theorem getLast?_binsFrom (h : lowest ≤ highest) :
    (binsFrom lowest highest).getLast? = some highest := by
  rw [binsFrom_eq_concat h, List.getLast?_concat]

theorem min?_binsFrom (h : lowest ≤ highest) : (binsFrom lowest highest).min? = some lowest := by
  rw [List.min?_eq_some_iff]
  exact ⟨mem_binsFrom.mpr ⟨le_rfl, h⟩, fun _ hm => (mem_binsFrom.mp hm).left⟩

theorem max?_binsFrom (h : lowest ≤ highest) : (binsFrom lowest highest).max? = some highest := by
  rw [List.max?_eq_some_iff]
  exact ⟨mem_binsFrom.mpr ⟨h, le_rfl⟩, fun _ hm => (mem_binsFrom.mp hm).right⟩

theorem pairwise_binsFrom (lowest highest : Int) : (binsFrom lowest highest).Pairwise (· < ·) := by
  rw [binsFrom, List.pairwise_map]
  exact List.pairwise_lt_range.imp fun h => by omega

theorem nodup_binsFrom (lowest highest : Int) : (binsFrom lowest highest).Nodup :=
  (pairwise_binsFrom lowest highest).imp ne_of_lt

namespace Shape

theorem gap?_eq_none_iff : gap? bins = none ↔ bins.IsChain fun a b => b = a + 1 := by
  fun_induction gap? bins
  case case1 a rest hi   => simp [hi]
  case case2 a b rest hb => simp [hb]
  case case3 bins hb     =>
    match bins, hb with
    | [], _            => simp
    | [_], _           => simp
    | a :: b :: _, hb  => exact absurd rfl (hb a b _)

theorem gap?_binsFrom (lowest highest : Int) : gap? (binsFrom lowest highest) = none := by
  rw [gap?_eq_none_iff, binsFrom, List.isChain_map]
  exact (List.isChain_range _ _).mpr fun m _ => by push_cast; omega

-- Without a gap the bins ascend.
theorem pairwise_of_gap? (h : gap? bins = none) : bins.Pairwise (· < ·) :=
  List.isChain_iff_pairwise.mp <| (gap?_eq_none_iff.mp h).imp fun a b h => by omega

end Shape

end BinMarket
