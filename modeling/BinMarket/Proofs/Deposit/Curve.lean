import BinMarket.Proofs.Deposit.Shape
import BinMarket.Proofs.Outcome

/-!
The weights of a bell curve. Rounding never gives a binary number a minus sign that its operands do
not have, so no weight is negative, and the centre of a range has the full weight.
-/

namespace BinMarket

namespace Binary64

variable {a b : Binary64}

-- The numbers that have no minus sign.
inductive Unsigned : Binary64 → Prop
  | finite {m : Nat} {e : Int} : Unsigned (finite false m e)
  | infinity : Unsigned (infinity false)
  | nan : Unsigned nan

def isPositive : Binary64 → Bool
  | finite false m _ => m ≠ 0
  | _ => false

-- Zero divided by a positive number is zero.
theorem zero_div_of_isPositive (h : a.isPositive) :
    (ofInt 0).div a = finite false 0 minExponent := by
  unfold isPositive at h
  split at h
  case h_1 => simpa [ofInt, ofRatio, div] using h
  case h_2 => contradiction

theorem unsigned_ofRatio (num den : Nat) : (ofRatio false num den).Unsigned := by
  rw [ofRatio]
  dsimp only
  split_ifs
  all_goals constructor

theorem Unsigned.mul (ha : a.Unsigned) (hb : b.Unsigned) : (a.mul b).Unsigned := by
  cases ha <;> cases hb <;> simp only [Binary64.mul]
  case finite.finite => exact unsigned_ofRatio ..
  all_goals first | constructor | (split <;> constructor)

theorem unsigned_decayWith (bits num den tries : Nat) : (decayWith bits num den tries).Unsigned := by
  fun_induction decayWith bits num den tries
  case case1       => exact unsigned_ofRatio ..
  case case2       => exact unsigned_ofRatio ..
  case case3 hi    => exact hi

theorem Unsigned.truncate_nonneg (h : a.Unsigned) : 0 ≤ a.truncate := by
  cases h
  case finite   => exact Int.natCast_nonneg _
  case infinity => exact le_rfl
  case nan      => exact le_rfl

end Binary64

namespace Curve

variable {lowest highest : Int}

theorem weightAt_nonneg (z : Binary64) : 0 ≤ weightAt z := by
  have hscale : (Binary64.ofInt scale).Unsigned := Binary64.unsigned_ofRatio ..
  refine Binary64.Unsigned.truncate_nonneg (.mul ?_ hscale)
  split
  case h_1 => exact Binary64.unsigned_decayWith ..
  case h_2 => exact Binary64.unsigned_ofRatio ..

theorem weightAt_zero : weightAt (.finite false 0 Binary64.minExponent) = scale := by
  decide +kernel

-- Distances within a range are not too large for binary numbers.
theorem binary_eq {n : Int} (hl : -70 < n) (hh : n < 70) : binary n = .ok (.ofInt n) := by
  have hall : ∀ k : Fin 140, (Binary64.ofInt ((k : Nat) - 70)).isInfinite = false := by
    decide +kernel
  have hn := hall ⟨(n + 70).toNat, by omega⟩
  rw [Int.toNat_of_nonneg (by omega), add_sub_cancel_right] at hn
  rw [binary, hn]
  rfl

theorem exists_deviation (hle : lowest ≤ highest) (hw : highest < lowest + 70) :
    ∃ d, deviation lowest highest = .ok d ∧ d.isPositive := by
  have hall : ∀ k : Fin 70, (deviation 0 (k : Nat)).toOption.any Binary64.isPositive := by
    decide +kernel
  have hk := hall ⟨(highest - lowest).toNat, by omega⟩
  have hd : deviation 0 (highest - lowest) = deviation lowest highest := by
    rw [deviation, deviation, sub_zero]
  rw [Int.toNat_of_nonneg (by omega), hd] at hk
  cases h : deviation lowest highest
  case error => simp [h, Except.toOption] at hk
  case ok d  => exact ⟨d, rfl, by simpa [h, Except.toOption] using hk⟩

-- A range that is not too wide has the weights of a curve.
theorem exists_weights (hle : lowest ≤ highest) (hw : highest < lowest + 70) (active : Int) :
    ∃ f : Int → Int,
      weights active (binsFrom lowest highest) = .ok (.on (binsFrom lowest highest) f) ∧
      (∀ k, 0 ≤ f k) ∧ 0 < f (centre active lowest highest) := by
  have ⟨d, hd, hp⟩ := exists_deviation hle hw
  let f (k : Int) := weightAt ((Binary64.ofInt (k - centre active lowest highest)).div d)
  refine ⟨f, ?_, fun _ => weightAt_nonneg _, ?_⟩
  case refine_1 =>
    have hbin {b : Int} (hb : b ∈ binsFrom lowest highest) :
        weight (centre active lowest highest) d b = .ok (f b) := by
      rw [mem_binsFrom] at hb
      rw [weight, binary_eq (by rw [centre]; omega) (by rw [centre]; omega)]
      rfl
    have hpairs : (binsFrom lowest highest).mapM
        (fun b => do return (b, ← weight (centre active lowest highest) d b)) =
        .ok (Weights.on (binsFrom lowest highest) f) := by
      refine mapM_eq_ok_iff.mpr (List.forall₂_map_right_iff.mpr (List.forall₂_same.mpr ?_))
      intro b hb
      rw [hbin hb]
      rfl
    simp only [weights, min?_binsFrom hle, max?_binsFrom hle, hd]
    refine bind_eq_ok_iff.mpr ⟨d, rfl, bind_eq_ok_iff.mpr ⟨_, hpairs, ?_⟩⟩
    exact congrArg Except.ok (Weights.ofPairs_on (pairwise_binsFrom lowest highest))
  case refine_2 =>
    simp only [f, sub_self, Binary64.zero_div_of_isPositive hp, weightAt_zero]
    decide

end Curve

end BinMarket
