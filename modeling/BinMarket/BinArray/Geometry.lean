import BinMarket.Direction

/-!
Bins are kept in arrays of 70. Array `i` holds the bins from `70 * i` to `70 * i + 69`, for negative
indexes as well.
-/

namespace BinMarket

-- The bins from one to another, ascending.
def binsFrom (lowest highest : Int) : List Int :=
  (List.range (highest - lowest + 1).toNat).map fun i => lowest + (i : Nat)

theorem mem_binsFrom {lowest highest id : Int} :
    id ∈ binsFrom lowest highest ↔ lowest ≤ id ∧ id ≤ highest := by
  simp only [binsFrom, List.mem_map, List.mem_range]
  constructor
  · rintro ⟨i, hi, rfl⟩; omega
  · intro h
    exact ⟨(id - lowest).toNat, by omega, by omega⟩

namespace BinArray

def size : Nat := 70

-- The array that holds a bin.
def indexOf (bin : Int) : Int := bin / 70

def lowest (index : Int) : Int := index * 70

def highest (index : Int) : Int := index * 70 + 69

def Holds (index bin : Int) : Prop := lowest index ≤ bin ∧ bin ≤ highest index

instance (index bin : Int) : Decidable (Holds index bin) :=
  inferInstanceAs (Decidable (_ ∧ _))

theorem holds_iff {index bin : Int} : Holds index bin ↔ indexOf bin = index := by
  unfold Holds lowest highest indexOf
  omega

-- The first bin of an array on the way.
def entry (index : Int) : Direction → Int
  | .xToY => highest index
  | .yToX => lowest index

-- The first bin past an array on the way.
def exit (index : Int) (d : Direction) : Int :=
  match d with
  | .xToY => lowest index - 1
  | .yToX => highest index + 1

theorem indexOf_entry (index : Int) (d : Direction) : indexOf (entry index d) = index := by
  cases d <;> simp only [entry, highest, lowest, indexOf] <;> omega

theorem indexOf_exit (index : Int) (d : Direction) : indexOf (exit index d) = d.after index := by
  cases d <;> simp only [exit, highest, lowest, indexOf, Direction.after] <;> omega

-- The pool's own bitmap covers these array indexes; those outside need the extension.
def inlineLowest : Int := -512
def inlineHighest : Int := 511

def overflowsInline (index : Int) : Bool := inlineHighest < index || index < inlineLowest

end BinArray

end BinMarket
