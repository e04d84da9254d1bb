import BinMarket.Scale

/-!
Decimal numbers as they are written. A coefficient keeps its trailing zeros, so 1.0 and 1.00 are
one number in two forms, and the form that an operation leaves behind is part of its answer.
-/

namespace BinMarket

inductive Decimal
  | finite (negative : Bool) (coefficient : Nat) (exponent : Int)
  | infinity (negative : Bool)
  | nan (signaling negative : Bool) (payload : Nat)
deriving DecidableEq, Inhabited

namespace Decimal

inductive Failure
  | invalid
  | divisionByZero
  | overflow
  | infinityToInteger
  | nanToInteger
deriving DecidableEq, Repr, Inhabited

-- Every finite result has its leading digit between these two powers of ten, or it is subnormal.
def maxExponent : Int := 999999
def minExponent : Int := -999999

-- The least exponent that a number of `p` digits may carry.
def tiny (p : Nat) : Int := minExponent - p + 1

-- The greatest exponent that a number of `p` digits may carry.
def top (p : Nat) : Int := maxExponent - p + 1

-- How many decimal digits write a number; zero is written with one.
def digitCount (n : Nat) : Nat :=
  if n < 10 then 1
  else if n < 10000000000000000 then digitCount (n / 10) + 1
  else digitCount (n / 10000000000000000) + 16
termination_by n

theorem digitCount_pos (n : Nat) : 0 < digitCount n := by
  rw [digitCount]; split
  · decide
  · split <;> omega

theorem lt_tenTo_digitCount (n : Nat) : n < tenTo (digitCount n) := by
  fun_induction digitCount n with
  | case1 n h => exact h
  | case2 n _ _ ih => rw [tenTo_succ]; omega
  | case3 n _ _ ih =>
    have h : tenTo 16 = 10000000000000000 := rfl
    rw [tenTo_add, h]; omega

theorem tenTo_le_of_digitCount {n : Nat} (h : 0 < n) : tenTo (digitCount n - 1) ≤ n := by
  fun_induction digitCount n with
  | case1 n _ => exact Nat.succ_le_of_lt h
  | case2 n _ _ ih =>
    have ih := ih (by omega)
    have hp := digitCount_pos (n / 10)
    generalize digitCount (n / 10) = d at ih hp
    obtain ⟨k, rfl⟩ : ∃ k, d = k + 1 := ⟨d - 1, by omega⟩
    rw [Nat.add_sub_cancel] at ih
    rw [Nat.add_sub_cancel, tenTo_succ]; omega
  | case3 n _ _ ih =>
    have ih := ih (by omega)
    have hp := digitCount_pos (n / 10000000000000000)
    generalize digitCount (n / 10000000000000000) = d at ih hp
    obtain ⟨k, rfl⟩ : ∃ k, d = k + 1 := ⟨d - 1, by omega⟩
    have hs : tenTo 16 = 10000000000000000 := rfl
    rw [Nat.add_sub_cancel] at ih
    rw [show k + 1 + 16 - 1 = k + 16 by omega, tenTo_add, hs]; omega

def ofInt (n : Int) : Decimal := finite (n < 0) n.natAbs 0

def zero : Decimal := finite false 0 0

def one : Decimal := finite false 1 0

-- The number with its sign turned, zeros included.
def flip : Decimal → Decimal
  | finite s c e => finite (!s) c e
  | infinity s => infinity (!s)
  | nan g s k => nan g (!s) k

-- The exponent of the leading digit.
def adjusted (c : Nat) (e : Int) : Int := e + digitCount c - 1

-- A coefficient and exponent with as few trailing zeros as an exponent of at most `ideal` allows.
def reduce (ideal : Int) (c : Nat) (e : Int) : Nat × Int :=
  if 0 < c ∧ c % 10 = 0 ∧ e < ideal then reduce ideal (c / 10) (e + 1) else (c, e)
termination_by c
decreasing_by omega

end Decimal

end BinMarket
