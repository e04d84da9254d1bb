import BinMarket.Decimal.Power
import Mathlib.Tactic.SplitIfs

/-!
Finite results. An operation that rounds ends with a finite number or with a failure.
-/

namespace BinMarket.Decimal

variable {p : Nat} {s : Bool} {c : Nat} {e n : Int} {x y z : Decimal}

inductive IsFinite : Decimal → Prop
  | intro {s : Bool} {c : Nat} {e : Int} : IsFinite (finite s c e)

-- A number whose leading digit is not below the least exponent, so that it has all of its digits.
inductive IsNormal : Decimal → Prop
  | intro {s : Bool} {c : Nat} {e : Int} : 0 < c → minExponent ≤ adjusted c e →
    IsNormal (finite s c e)

instance : DecidablePred IsNormal
  | finite _ c e => decidable_of_iff (0 < c ∧ minExponent ≤ adjusted c e)
      ⟨fun h => .intro h.left h.right, fun h => by cases h; constructor <;> assumption⟩
  | infinity _   => isFalse nofun
  | nan ..       => isFalse nofun

theorem isFinite_of_finish (h : finish p s c e = .ok x) : x.IsFinite := by
  rw [finish] at h
  dsimp only at h
  split_ifs at h
  all_goals cases h; constructor

theorem isFinite_of_settle? {b : Bracket} (h : b.settle? p s = some (.ok x)) : x.IsFinite :=
  isFinite_of_finish (Bracket.settle?_eq_some_iff.mp h).left

theorem isFinite_of_power (h : power p x n = .ok y) : y.IsFinite := by
  unfold power at h
  split at h
  case h_2 => contradiction
  case h_1 =>
    split at h
    case isTrue  => contradiction
    case isFalse =>
      dsimp only at h
      split at h
      case h_1 hs => exact isFinite_of_settle? (hs.trans (congrArg some h))
      case h_2 =>
        split at h
        case h_1 hs => exact isFinite_of_settle? (hs.trans (congrArg some h))
        case h_2 =>
          rw [wholePower] at h
          split at h
          case isTrue  => exact isFinite_of_finish h
          case isFalse => exact isFinite_of_finish h

theorem IsFinite.of_mul (hx : x.IsFinite) (hy : y.IsFinite) (h : mul p x y = .ok z) :
    z.IsFinite := by
  cases hx
  cases hy
  exact isFinite_of_finish h

theorem IsFinite.exists_truncate (h : x.IsFinite) : ∃ n, x.truncate = .ok n := by
  cases h
  exact ⟨_, rfl⟩

end BinMarket.Decimal
