/-!
The two directions of a swap, and the order in which each meets bins and arrays.
-/

namespace BinMarket

-- Which way a swap goes: token X for Y takes it to lower bins, token Y for X to higher ones.
inductive Direction
  | xToY
  | yToX
deriving DecidableEq, Repr

namespace Direction

def after : Direction → Int → Int
  | xToY, i => i - 1
  | yToX, i => i + 1

-- Whether `j` is `i` or comes after it.
def reaches (d : Direction) (i j : Int) : Prop :=
  match d with
  | xToY => j ≤ i
  | yToX => i ≤ j

instance (d : Direction) (i j : Int) : Decidable (d.reaches i j) := by
  cases d <;> unfold reaches <;> infer_instance

theorem reaches_refl (d : Direction) (i : Int) : d.reaches i i := by
  cases d <;> simp [reaches]

theorem reaches_trans {d : Direction} {i j k : Int} (h : d.reaches i j) (h' : d.reaches j k) :
    d.reaches i k := by
  cases d <;> simp only [reaches] at * <;> omega

end Direction

end BinMarket
