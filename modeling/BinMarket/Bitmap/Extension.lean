import BinMarket.Bitmap.Tier
import BinMarket.Pool

/-!
The bitmaps of a pool: its own words, and an extension for the array indexes on either side of them.
-/

namespace BinMarket

-- Twelve rows of eight words for each side.
structure Extension where
  positive : Vector (Vector Int 8) 12
  negative : Vector (Vector Int 8) 12
  pool     : PublicKey := .unset
deriving DecidableEq

namespace Extension

def row? (words : List Int) : Option (Vector Int 8) :=
  if h : words.toArray.size = 8 then some ⟨words.toArray, h⟩ else none

def side? (rows : List (List Int)) : Option (Vector (Vector Int 8) 12) := do
  let rows ← rows.mapM row?
  if h : rows.toArray.size = 12 then some ⟨rows.toArray, h⟩ else none

-- An extension from its rows. The positive side is checked first.
def ofRows (positive negative : List (List Int)) (pool : PublicKey) : Except Fault Extension :=
  match side? positive, side? negative with
  | some positive, some negative => .ok { positive, negative, pool }
  | none, _ => .error (.invalid (.extensionShape "positive_bin_array_bitmap"))
  | _, none => .error (.invalid (.extensionShape "negative_bin_array_bitmap"))

def emptySide : List (List Int) := List.replicate 12 (List.replicate 8 0)

def sideBits (side : Vector (Vector Int 8) 12) : Int :=
  Bits.packRows (side.toList.map (·.toList))

def highest : Int := 6655
def lowest : Int := -6656

-- The arrays above the pool's own bitmap.
def above (e : Extension) : Tier where
  kind       := .extension
  bits       := sideBits e.positive
  lowest     := BinArray.inlineHighest + 1
  highest    := highest
  descending := false

-- The arrays below the pool's own bitmap, the nearest in the lowest bit.
def below (e : Extension) : Tier where
  kind       := .extension
  bits       := sideBits e.negative
  lowest     := lowest
  highest    := BinArray.inlineLowest - 1
  descending := true

end Extension

-- The arrays of the pool's own bitmap.
def Pool.inlineTier (p : Pool) : Tier where
  kind       := .inline
  bits       := Bits.packWords p.words.toList
  lowest     := BinArray.inlineLowest
  highest    := BinArray.inlineHighest
  descending := false

-- The ranges of a pool from the lowest to the highest.
def Pool.tiers (p : Pool) : Option Extension → List Tier
  | none => [p.inlineTier]
  | some e => [e.below, p.inlineTier, e.above]

theorem Pool.tier_bounds {p : Pool} {e : Option Extension} {t : Tier} (h : t ∈ p.tiers e) :
    Extension.lowest ≤ t.lowest ∧ t.highest ≤ Extension.highest := by
  cases e <;> simp only [Pool.tiers, List.mem_cons, List.not_mem_nil, or_false] at h
  · subst h
    simp [Pool.inlineTier, Extension.lowest, Extension.highest, BinArray.inlineLowest,
      BinArray.inlineHighest]
  · rcases h with rfl | rfl | rfl <;>
      simp [Pool.inlineTier, Extension.below, Extension.above, Extension.lowest,
        Extension.highest, BinArray.inlineLowest, BinArray.inlineHighest]

end BinMarket
