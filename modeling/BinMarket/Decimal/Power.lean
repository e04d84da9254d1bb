import BinMarket.Decimal.Bracket

/-!
Integer powers of a positive decimal, correctly rounded. A power that fits is exact and keeps its
natural exponent. One that does not fit is bracketed with more digits until both ends agree, and the
whole power is multiplied out should they never do.
-/

namespace BinMarket.Decimal

-- A bracket of `w` digits around a power of `c` units of ten to the `e`.
def powerBracket (w c : Nat) (e : Int) (n : Int) : Bracket :=
  let base := if n < 0 then Bracket.inverse w c e else Bracket.exactly c e
  base.pow w n.natAbs

-- The power multiplied out to its last digit and then rounded.
def wholePower (p c : Nat) (e : Int) (n : Int) : Except Failure Decimal :=
  if n < 0 then
    let (q, e') := divCoefficients p 1 (Nat.pow c n.natAbs) (-(e * n.natAbs))
    finish p false q e'
  else finish p false (Nat.pow c n.natAbs) (e * n)

-- The power of a positive number. Nothing else is raised to a power here.
def power (p : Nat) (base : Decimal) (n : Int) : Except Failure Decimal :=
  match base with
  | finite false c e =>
    if c = 0 then .error .invalid
    else
      let w := p + digitCount n.natAbs + 10
      match (powerBracket w c e n).settle? p false with
      | some r => r
      | none =>
        match (powerBracket (2 * w) c e n).settle? p false with
        | some r => r
        | none => wholePower p c e n
  | _ => .error .invalid

end BinMarket.Decimal
