import BinMarket.Proofs.Decimal.Size

/-!
Signs of decimal results. Rounding may lose digits but never turns a sign, so what is not above zero
stays there through a product with a natural number and a quotient by one.
-/

namespace BinMarket.Decimal

variable {p : Nat} {s : Bool} {c : Nat} {e a b n : Int} {x y : Decimal}

theorem signed_nonpos_iff : signed s c ≤ 0 ↔ s = true ∨ c = 0 := by
  cases s <;> simp [signed]

-- A finite number that is not above zero. A zero may carry either sign.
inductive NonPos : Decimal → Prop
  | intro {s : Bool} {c : Nat} {e : Int} : signed s c ≤ 0 → NonPos (finite s c e)

theorem finish_nonPos (hs : signed s c ≤ 0) (h : finish p s c e = .ok x) : x.NonPos := by
  rw [finish] at h
  split at h
  case isTrue =>
    cases h
    exact .intro (signed_nonpos_iff.mpr (.inr rfl))
  case isFalse hc =>
    -- A coefficient that is not zero leaves only its sign to keep.
    obtain rfl : s = true := (signed_nonpos_iff.mp hs).resolve_right hc
    have hneg (c' : Nat) (e' : Int) : NonPos (finite true c' e') :=
      .intro (signed_nonpos_iff.mpr (.inl rfl))
    dsimp only at h
    repeat' split at h
    all_goals cases h
    all_goals exact hneg ..

theorem sub_ofInt_nonPos (hle : a ≤ b) (h : sub p (ofInt a) (ofInt b) = .ok x) : x.NonPos := by
  have ⟨s, hs, hsub⟩ := sub_ofInt p a b
  exact finish_nonPos (hs.trans_le (sub_nonpos.mpr hle)) (hsub.symm.trans h)

theorem mul_ofInt_nonPos (hx : x.NonPos) (hn : 0 ≤ n) (h : mul p x (ofInt n) = .ok y) :
    y.NonPos := by
  cases hx
  case intro s c e hs =>
    refine finish_nonPos (signed_nonpos_iff.mpr ?_) h
    cases signed_nonpos_iff.mp hs
    case inl ht => exact .inl (by simp [ht, not_lt.mpr hn])
    case inr hz => exact .inr (by simp [hz])

theorem div_ofInt_nonPos (hx : x.NonPos) (hn : 0 < n) (h : div p x (ofInt n) = .ok y) :
    y.NonPos := by
  cases hx
  case intro s c e hs =>
    simp only [div, nanResult?, ofInt] at h
    rw [if_neg (by omega)] at h
    split at h
    case isTrue    => exact finish_nonPos (signed_nonpos_iff.mpr (.inr rfl)) h
    case isFalse hc =>
      obtain rfl : s = true := (signed_nonpos_iff.mp hs).resolve_right hc
      exact finish_nonPos (signed_nonpos_iff.mpr (.inl (by simp; omega))) h

theorem NonPos.le_zero (hx : x.NonPos) : x.le .zero = .ok true := by
  cases hx
  case intro s c e hs =>
    have hc : compare (signed s c) (signed false 0) ≠ .gt := compare_le_iff_le.mpr hs
    simp only [le, order, zero, or_true, true_or, if_true]
    exact congrArg Except.ok (bne_iff_ne.mpr hc)

end BinMarket.Decimal
