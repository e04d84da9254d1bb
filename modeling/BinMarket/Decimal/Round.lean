import BinMarket.Decimal.Basic
import BinMarket.Quotient

/-!
Rounding to a number of significant digits. Every operation first finds its exact result, or one
that no rounding can tell from it, and `finish` then cuts it to `p` digits, half to even.
-/

namespace BinMarket.Decimal

-- The coefficient without its last `k` digits, half to even.
def dropDigits (c k : Nat) : Nat :=
  if digitCount c < k then 0 else halfEven c (tenTo k)

-- Rounds to `p` digits. A number that fits already keeps its exponent.
def finish (p : Nat) (negative : Bool) (c : Nat) (e : Int) : Except Failure Decimal :=
  if c = 0 then .ok (finite negative 0 (max (min e maxExponent) (tiny p)))
  else
    let wanted := e + digitCount c - p
    let least := max wanted (tiny p)
    if top p < wanted then .error .overflow
    else if least ≤ e then .ok (finite negative c e)
    else
      let m := dropDigits c (least - e).toNat
      if digitCount m ≤ p then .ok (finite negative m least)
      -- the carry ran through every digit and left a power of ten
      else if top p < least + 1 then .error .overflow
      else .ok (finite negative (m / 10) (least + 1))

-- A result that is not a number keeps as much of its payload as fits.
def finishNaN (p : Nat) (negative : Bool) (payload : Nat) : Decimal :=
  nan false negative (payload % tenTo p)

-- The first operand that is not a number decides, and a signaling one fails.
def nanResult? (p : Nat) (a b : Decimal) : Option (Except Failure Decimal) :=
  match a, b with
  | nan true .., _ => some (.error .invalid)
  | _, nan true .. => some (.error .invalid)
  | nan false s k, _ => some (.ok (finishNaN p s k))
  | _, nan false s k => some (.ok (finishNaN p s k))
  | _, _ => none

end BinMarket.Decimal
