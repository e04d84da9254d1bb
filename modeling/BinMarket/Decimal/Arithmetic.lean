import BinMarket.Decimal.Round

/-!
Sums, products, quotients, comparison and conversion to integers.
-/

namespace BinMarket.Decimal

def signed (negative : Bool) (c : Nat) : Int := if negative then -c else c

-- The sum of two nonzero numbers, the first with the larger exponent. When the second lies wholly
-- below the last digit that rounding looks at, one unit in the place under it stands in for it.
def addAligned (p : Nat) (s₁ : Bool) (c₁ : Nat) (e₁ : Int) (s₂ : Bool) (c₂ : Nat) (e₂ : Int) :
    Except Failure Decimal :=
  let floor := e₁ + min (-1) ((digitCount c₁ : Int) - p - 2)
  let (c₂, e₂) := if adjusted c₂ e₂ < floor then (1, floor) else (c₂, e₂)
  let sum := signed s₁ (c₁ * tenTo (e₁ - e₂).toNat) + signed s₂ c₂
  finish p (sum < 0) sum.natAbs e₂

-- A number moved to a smaller exponent, as far down as `p` digits can show.
def pad (p : Nat) (s : Bool) (c : Nat) (e wanted : Int) : Except Failure Decimal :=
  let e' := min e (max wanted (e - p - 1))
  finish p s (c * tenTo (e - e').toNat) e'

def add (p : Nat) (a b : Decimal) : Except Failure Decimal :=
  match nanResult? p a b with
  | some r => r
  | none =>
    match a, b with
    | infinity s, infinity t => if s = t then .ok a else .error .invalid
    | infinity _, _ => .ok a
    | _, infinity _ => .ok b
    | finite s₁ c₁ e₁, finite s₂ c₂ e₂ =>
      if c₁ = 0 ∧ c₂ = 0 then finish p (s₁ && s₂) 0 (min e₁ e₂)
      else if c₁ = 0 then pad p s₂ c₂ e₂ e₁
      else if c₂ = 0 then pad p s₁ c₁ e₁ e₂
      else if e₁ < e₂ then addAligned p s₂ c₂ e₂ s₁ c₁ e₁
      else addAligned p s₁ c₁ e₁ s₂ c₂ e₂
    | _, _ => .error .invalid

def sub (p : Nat) (a b : Decimal) : Except Failure Decimal :=
  match b with
  | nan .. => add p a b
  | _ => add p a b.flip

-- The opposite number, rounded; a zero loses its sign.
def neg (p : Nat) : Decimal → Except Failure Decimal
  | finite s c e => finish p (!s && c != 0) c e
  | infinity s => .ok (infinity !s)
  | nan true .. => .error .invalid
  | nan false s k => .ok (finishNaN p s k)

def mul (p : Nat) (a b : Decimal) : Except Failure Decimal :=
  match nanResult? p a b with
  | some r => r
  | none =>
    match a, b with
    | finite s₁ c₁ e₁, finite s₂ c₂ e₂ => finish p (s₁ != s₂) (c₁ * c₂) (e₁ + e₂)
    | infinity s, infinity t => .ok (infinity (s != t))
    | infinity s, finite t c _ => if c = 0 then .error .invalid else .ok (infinity (s != t))
    | finite s c _, infinity t => if c = 0 then .error .invalid else .ok (infinity (s != t))
    | _, _ => .error .invalid

-- The quotient of two coefficients: exact, with an exponent as near to `ideal` as it goes, or else
-- with more digits than rounding looks at, the last of them neither 0 nor 5.
def divCoefficients (p : Nat) (c₁ c₂ : Nat) (ideal : Int) : Nat × Int :=
  let shift : Int := digitCount c₂ - digitCount c₁ + p + 1
  let n := c₁ * tenTo shift.toNat
  let d := c₂ * tenTo (-shift).toNat
  let q := n / d
  if n % d = 0 then reduce ideal q (ideal - shift)
  else (if q % 5 = 0 then q + 1 else q, ideal - shift)

def div (p : Nat) (a b : Decimal) : Except Failure Decimal :=
  match nanResult? p a b with
  | some r => r
  | none =>
    match a, b with
    | infinity _, infinity _ => .error .invalid
    | infinity s, finite t _ _ => .ok (infinity (s != t))
    | finite s _ _, infinity t => .ok (finite (s != t) 0 (tiny p))
    | finite s₁ c₁ e₁, finite s₂ c₂ e₂ =>
      if c₂ = 0 then .error (if c₁ = 0 then .invalid else .divisionByZero)
      else if c₁ = 0 then finish p (s₁ != s₂) 0 (e₁ - e₂)
      else
        let (c, e) := divCoefficients p c₁ c₂ (e₁ - e₂)
        finish p (s₁ != s₂) c e
    | _, _ => .error .invalid

-- How the sizes of two nonzero numbers compare. Leading digits first, so that exponents far apart
-- cost nothing.
def compareSizes (c₁ : Nat) (e₁ : Int) (c₂ : Nat) (e₂ : Int) : Ordering :=
  match compare (adjusted c₁ e₁) (adjusted c₂ e₂) with
  | .eq => compare (c₁ * tenTo (e₁ - e₂).toNat) (c₂ * tenTo (e₂ - e₁).toNat)
  | o => o

-- The order of two numbers by value. Nothing compares with what is not a number.
def order (a b : Decimal) : Except Failure Ordering :=
  match a, b with
  | nan .., _ => .error .invalid
  | _, nan .. => .error .invalid
  | infinity s, infinity t => .ok (compare t s)
  | infinity s, finite .. => .ok (if s then .lt else .gt)
  | finite .., infinity t => .ok (if t then .gt else .lt)
  | finite s₁ c₁ e₁, finite s₂ c₂ e₂ =>
    if c₁ = 0 ∨ c₂ = 0 ∨ s₁ ≠ s₂ then .ok (compare (signed s₁ c₁) (signed s₂ c₂))
    else if s₁ then .ok (compareSizes c₂ e₂ c₁ e₁)
    else .ok (compareSizes c₁ e₁ c₂ e₂)

def gt (a b : Decimal) : Except Failure Bool := return (← order a b) == .gt

def le (a b : Decimal) : Except Failure Bool := return (← order a b) != .gt

-- Rounds to the exponent `e` when `p` digits can hold the result.
def quantize (p : Nat) (e : Int) : Decimal → Except Failure Decimal
  | finite s c e₀ =>
    if c = 0 then finish p s 0 e
    else if maxExponent < adjusted c e₀ ∨ p < adjusted c e₀ - e + 1 then .error .invalid
    else
      let m := if e ≤ e₀ then c * tenTo (e₀ - e).toNat else dropDigits c (e - e₀).toNat
      if p < digitCount m then .error .invalid else .ok (finite s m e)
  | infinity _ => .error .invalid
  | nan true .. => .error .invalid
  | nan false s k => .ok (finishNaN p s k)

-- The size of a number without its fraction, and whether it has one.
def wholePart (c : Nat) (e : Int) : Nat × Bool :=
  if 0 ≤ e then (c * tenTo e.toNat, false)
  else if digitCount c < (-e).toNat then (0, c != 0)
  else (c / tenTo (-e).toNat, c % tenTo (-e).toNat != 0)

def truncate : Decimal → Except Failure Int
  | finite s c e => .ok (signed s (wholePart c e).1)
  | infinity _ => .error .infinityToInteger
  | nan .. => .error .nanToInteger

def floor : Decimal → Except Failure Int
  | finite s c e =>
    let (n, fraction) := wholePart c e
    .ok (signed s n - if s && fraction then 1 else 0)
  | infinity _ => .error .infinityToInteger
  | nan .. => .error .nanToInteger

def ceil : Decimal → Except Failure Int
  | finite s c e =>
    let (n, fraction) := wholePart c e
    .ok (signed s n + if !s && fraction then 1 else 0)
  | infinity _ => .error .infinityToInteger
  | nan .. => .error .nanToInteger

end BinMarket.Decimal
