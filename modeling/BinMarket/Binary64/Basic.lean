import BinMarket.Quotient
import BinMarket.Scale

/-!
Binary numbers of 53 digits. A result is found exactly, as a quotient of integers, and rounded once,
so every operation here can be computed in a proof.
-/

namespace BinMarket

-- A mantissa below `2 ^ 53` times a power of two, or one of the values past all of them.
inductive Binary64
  | finite (negative : Bool) (mantissa : Nat) (exponent : Int)
  | infinity (negative : Bool)
  | nan
deriving DecidableEq, Repr, Inhabited

namespace Binary64

def minExponent : Int := -1074
def maxExponent : Int := 971

-- A quotient as units of two to the `e`.
def inUnits (num den : Nat) (e : Int) : Nat × Nat :=
  (num * twoTo (-e).toNat, den * twoTo e.toNat)

-- The exponent that gives a quotient a mantissa of 53 digits, or the least one for tiny numbers.
def exponentOf (num den : Nat) : Int :=
  let e : Int := (num.log2 : Int) - den.log2 - 52
  let (n, d) := inUnits num den e
  max (if n / d < twoTo 52 then e - 1 else e) minExponent

-- The number nearest to a quotient, half to even.
def ofRatio (negative : Bool) (num den : Nat) : Binary64 :=
  if num = 0 then finite negative 0 minExponent
  else
    let e := exponentOf num den
    let (n, d) := inUnits num den e
    let m := halfEven n d
    let (m, e) := if m = twoTo 53 then (twoTo 52, e + 1) else (m, e)
    if maxExponent < e then infinity negative else finite negative m e

-- The nearest number to `n` units of two to the `e`.
def ofScaled (negative : Bool) (n : Nat) (e : Int) : Binary64 :=
  ofRatio negative (n * twoTo e.toNat) (twoTo (-e).toNat)

def ofInt (n : Int) : Binary64 := ofRatio (n < 0) n.natAbs 1

def isInfinite : Binary64 → Bool
  | infinity _ => true
  | _ => false

def neg : Binary64 → Binary64
  | finite s m e => finite (!s) m e
  | infinity s => infinity (!s)
  | nan => nan

def mul : Binary64 → Binary64 → Binary64
  | finite s₁ m₁ e₁, finite s₂ m₂ e₂ => ofScaled (s₁ != s₂) (m₁ * m₂) (e₁ + e₂)
  | infinity s, finite t m _ => if m = 0 then nan else infinity (s != t)
  | finite s m _, infinity t => if m = 0 then nan else infinity (s != t)
  | infinity s, infinity t => infinity (s != t)
  | _, _ => nan

-- The quotient by a number that is neither zero nor infinite.
def div : Binary64 → Binary64 → Binary64
  | finite s₁ m₁ e₁, finite s₂ m₂ e₂ =>
    if m₂ = 0 then nan
    else
      let e := e₁ - e₂
      ofRatio (s₁ != s₂) (m₁ * twoTo e.toNat) (m₂ * twoTo (-e).toNat)
  | infinity s, finite t _ _ => infinity (s != t)
  | _, _ => nan

-- The integer toward zero of a finite number.
def truncate : Binary64 → Int
  | finite s m e =>
    let n := m * twoTo e.toNat / twoTo (-e).toNat
    if s then -n else n
  | _ => 0

end Binary64

end BinMarket
