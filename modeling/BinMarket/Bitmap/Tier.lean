import BinMarket.BinArray.Geometry
import BinMarket.Fault
import BinMarket.Scale

/-!
Ranges of array indexes with one bit for each. A set bit says that the array holds liquidity. Bits
run with the indexes or, in a descending range, against them.
-/

namespace BinMarket

namespace Bits

-- The union of two sets of bits. A negative integer has all bits set from some place on.
def union : Int → Int → Int
  | .ofNat a, .ofNat b => .ofNat (a ||| b)
  | .ofNat a, .negSucc b => .negSucc (b ^^^ (a &&& b))
  | .negSucc a, .ofNat b => .negSucc (a ^^^ (b &&& a))
  | .negSucc a, .negSucc b => .negSucc (a &&& b)

-- Joins words of a number of bits each, the first lowest. A word that is too wide runs into the
-- next ones.
def pack (width : Nat) (words : List Int) : Int :=
  words.foldr (fun word rest => union word (rest * twoTo width)) 0

def packWords (words : List Int) : Int := pack 64 words

def packRows (rows : List (List Int)) : Int := pack 512 (rows.map packWords)

-- As many words of 64 bits with the bits at these places set.
def wordsOf (count : Nat) (places : List Int) : List Int :=
  (List.range count).map fun i =>
    sumOf ((List.range 64).map fun b =>
      if places.contains (64 * i + b : Nat) then (twoTo b : Int) else 0)

-- As many rows of eight words.
def rowsOf (count : Nat) (places : List Int) : List (List Int) :=
  (List.range count).map fun i => wordsOf 8 (places.map (· - (512 * i : Nat)))

-- The place of the lowest bit of a positive number.
def lowestOf (n : Nat) : Nat := (n ^^^ (n - 1)).log2

-- The place of the lowest bit, or -1 when there is none. A number and its opposite share it.
def lowest (v : Int) : Int := if v = 0 then -1 else lowestOf v.natAbs

-- How many bits are set in the size of a number.
def count (n : Nat) : Nat := if n = 0 then 0 else n % 2 + count (n / 2)
termination_by n

end Bits

inductive TierKind
  | segment
  | inline
  | extension
deriving DecidableEq, Repr

def TierKind.name : TierKind → String
  | .segment => "_BitmapSegment"
  | .inline => "InternalBitmap"
  | .extension => "ExtensionBitmap"

structure Tier where
  kind       : TierKind
  bits       : Int
  lowest     : Int
  highest    : Int
  descending : Bool
deriving DecidableEq, Repr

namespace Tier

def Covers (t : Tier) (index : Int) : Prop := t.lowest ≤ index ∧ index ≤ t.highest

instance (t : Tier) (index : Int) : Decidable (t.Covers index) :=
  inferInstanceAs (Decidable (_ ∧ _))

def place (t : Tier) (index : Int) : Int :=
  if t.descending then t.highest - index else index - t.lowest

def indexAt (t : Tier) (place : Int) : Int :=
  if t.descending then t.highest - place else t.lowest + place

-- Whether the bit for an index is set. The index may lie past the range, but not before its first
-- place.
def marks (t : Tier) (index : Int) : Except Fault Bool :=
  let k := t.place index
  if k < 0 then .error .negativeShift else .ok ((t.bits >>> k.toNat) % 2 == 1)

-- Whether a swap goes toward higher places.
def ascends (t : Tier) (d : Direction) : Bool := (d == .xToY) == t.descending

-- The nearest marked index at or after this one.
def next? (t : Tier) (d : Direction) (index : Int) : Option Int :=
  if t.Covers index then
    let k := (t.place index).toNat
    if t.ascends d then
      let above := t.bits >>> k
      if above = 0 then none else some (t.indexAt (k + Bits.lowestOf above.natAbs))
    else
      let below := (t.bits % twoTo (k + 1)).toNat
      if below = 0 then none else some (t.indexAt below.log2)
  else none

-- The first index past the range on the way.
def beyond (t : Tier) : Direction → Int
  | .xToY => t.lowest - 1
  | .yToX => t.highest + 1

theorem below_lt (bits : Int) (k : Nat) : (bits % twoTo k).toNat < twoTo k := by
  have hp := twoTo_pos k
  have := Int.emod_lt_of_pos bits (b := twoTo k) (by omega)
  have := Int.emod_nonneg bits (b := twoTo k) (by omega)
  omega

theorem reaches_beyond {t : Tier} {index : Int} (h : t.Covers index) (d : Direction) :
    d.reaches index (t.beyond d) := by
  obtain ⟨h₁, h₂⟩ := h
  cases d <;> simp only [Direction.reaches, beyond] <;> omega

theorem covers_of_next? {t : Tier} {d : Direction} {index found : Int}
    (h : t.next? d index = some found) : t.Covers index := by
  unfold next? at h
  split at h
  · assumption
  · contradiction

-- The search never looks back, whatever the bits.
theorem reaches_of_next? {t : Tier} {d : Direction} {index found : Int}
    (h : t.next? d index = some found) : d.reaches index found := by
  have hc := covers_of_next? h
  have ⟨h₁, h₂⟩ := hc
  simp only [next?, if_pos hc] at h
  have hk : 0 ≤ t.place index := by
    unfold place; split <;> omega
  split at h
  · rename_i ha
    split at h
    · contradiction
    · have hf := Option.some.inj h
      cases d <;> cases ht : t.descending <;>
        simp [ascends, ht, indexAt, place, Direction.reaches] at * <;> omega
  · rename_i ha
    split at h
    · contradiction
    · rename_i hb
      have hf := Option.some.inj h
      have hl := (Nat.log2_lt hb).2 (below_lt t.bits ((t.place index).toNat + 1))
      cases d <;> cases ht : t.descending <;>
        simp [ascends, ht, indexAt, place, Direction.reaches] at * <;> omega

def summary (t : Tier) : String :=
  s!"{t.kind.name}([{t.lowest}, {t.highest}], set={Bits.count t.bits.natAbs})"

end Tier

end BinMarket
