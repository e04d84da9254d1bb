import BinMarket.Bitmap.Extension

/-!
Liquidity read bit by bit from the words as they are stored. Nothing here packs words together or
searches, so this is what the ranges and their searches are measured by.
-/

namespace BinMarket

def Bits.has (word : Int) (place : Nat) : Bool := (word >>> place) % 2 == 1

namespace Extension

-- Whether one side has the bit at a place, counting through the words of one row after another.
def sideHas (side : Vector (Vector Int 8) 12) (place : Nat) : Bool :=
  match side[place / 512]? with
  | none => false
  | some row =>
    match row[place % 512 / 64]? with
    | none => false
    | some word => Bits.has word (place % 64)

end Extension

namespace Pool

-- The array indexes that have a bit at all.
def Covers (e : Option Extension) (index : Int) : Prop :=
  match e with
  | none => BinArray.inlineLowest ≤ index ∧ index ≤ BinArray.inlineHighest
  | some _ => Extension.lowest ≤ index ∧ index ≤ Extension.highest

instance (e : Option Extension) (index : Int) : Decidable (Covers e index) := by
  cases e <;> exact inferInstanceAs (Decidable (_ ∧ _))

-- Whether the pool's own words have the bit for an index.
def inlineHas (p : Pool) (index : Int) : Bool :=
  match p.words[(index - BinArray.inlineLowest).toNat / 64]? with
  | none => false
  | some word => Bits.has word ((index - BinArray.inlineLowest).toNat % 64)

-- Whether the bit for an index is set. An index without a bit has no liquidity.
def isLiquid (p : Pool) (e : Option Extension) (index : Int) : Bool :=
  if BinArray.overflowsInline index then
    match e with
    | none => false
    | some e =>
      if BinArray.inlineHighest < index then
        Extension.sideHas e.positive (index - 512).toNat
      else Extension.sideHas e.negative (-index - 513).toNat
  else p.inlineHas index

end Pool

end BinMarket
