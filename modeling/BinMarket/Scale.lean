/-!
Powers of two and of ten, by which numbers are scaled, and sums of integers.
-/

namespace BinMarket

def twoTo (k : Nat) : Nat := Nat.pow 2 k

def tenTo (k : Nat) : Nat := Nat.pow 10 k

@[simp] theorem twoTo_zero : twoTo 0 = 1 := rfl

@[simp] theorem tenTo_zero : tenTo 0 = 1 := rfl

theorem tenTo_succ (k : Nat) : tenTo (k + 1) = 10 * tenTo k := Nat.mul_comm ..

theorem twoTo_pos (k : Nat) : 0 < twoTo k := Nat.pow_pos (by decide)

theorem tenTo_pos (k : Nat) : 0 < tenTo k := Nat.pow_pos (by decide)

theorem tenTo_add (k l : Nat) : tenTo (k + l) = tenTo k * tenTo l := Nat.pow_add ..

def sumOf (xs : List Int) : Int := xs.foldr (· + ·) 0

@[simp] theorem sumOf_nil : sumOf [] = 0 := rfl

@[simp] theorem sumOf_cons (x : Int) (xs : List Int) : sumOf (x :: xs) = x + sumOf xs := rfl

end BinMarket
