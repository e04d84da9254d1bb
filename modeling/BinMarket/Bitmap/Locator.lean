import BinMarket.Bitmap.Extension

/-!
Finding the arrays that a swap will visit. The search goes from range to range and never back.
-/

namespace BinMarket

namespace Locator

-- The ranges in the order in which a swap meets them.
def inOrder (d : Direction) (tiers : List Tier) : List Tier :=
  match d with
  | .xToY => tiers.reverse
  | .yToX => tiers

-- The nearest marked array at or after an index, with the ranges in the order of the swap. A range
-- without one is left at its far end, and the next range takes over there.
def search (d : Direction) : List Tier → Int → Option Int
  | [], _ => none
  | t :: rest, index =>
    if t.Covers index then
      match t.next? d index with
      | some found => some found
      | none => search d rest (t.beyond d)
    else search d rest index

theorem reaches_of_search {d : Direction} {tiers : List Tier} {index found : Int}
    (h : search d tiers index = some found) : d.reaches index found := by
  induction tiers generalizing index with
  | nil => simp [search] at h
  | cons t rest ih =>
    simp only [search] at h
    split at h
    · rename_i hc
      split at h
      · rename_i hn
        cases h
        exact Tier.reaches_of_next? hn
      · exact Direction.reaches_trans (Tier.reaches_beyond hc d) (ih h)
    · exact ih h

theorem covers_of_search {d : Direction} {tiers : List Tier} {index found : Int}
    (h : search d tiers index = some found) : ∃ t ∈ tiers, t.Covers index := by
  induction tiers generalizing index with
  | nil => simp [search] at h
  | cons t rest ih =>
    simp only [search] at h
    split at h
    · rename_i hc
      exact ⟨t, List.mem_cons_self, hc⟩
    · obtain ⟨u, hu, hc⟩ := ih h
      exact ⟨u, List.mem_cons_of_mem _ hu, hc⟩

-- The nearest array with liquidity from the array of a bin on.
def next? (d : Direction) (tiers : List Tier) (active : Int) : Option Int :=
  search d (inOrder d tiers) (BinArray.indexOf active)

theorem reaches_of_next? {d : Direction} {tiers : List Tier} {active found : Int}
    (h : next? d tiers active = some found) : d.reaches (BinArray.indexOf active) found :=
  reaches_of_search h

theorem covers_of_next? {d : Direction} {tiers : List Tier} {active found : Int}
    (h : next? d tiers active = some found) :
    ∃ t ∈ tiers, t.Covers (BinArray.indexOf active) := by
  obtain ⟨t, ht, hc⟩ := covers_of_search h
  refine ⟨t, ?_, hc⟩
  cases d <;> simpa [inOrder] using ht

-- The first arrays with liquidity from the array of a bin on, at most `count` of them.
def upcoming (d : Direction) (tiers : List Tier) : Nat → Int → List Int
  | 0, _ => []
  | count + 1, active =>
    match next? d tiers active with
    | none => []
    | some index => index :: upcoming d tiers count (BinArray.exit index d)

end Locator

namespace Pool

-- The nearest array with liquidity from a bin on.
def nextArray (p : Pool) (e : Option Extension) (d : Direction) (active : Int) : Option Int :=
  Locator.next? d (p.tiers e) active

-- The arrays that a swap would visit first, at most `count` of them.
def arraysForSwap (p : Pool) (e : Option Extension) (d : Direction) (count : Int) : List Int :=
  Locator.upcoming d (p.tiers e) count.toNat p.activeId

end Pool

end BinMarket
