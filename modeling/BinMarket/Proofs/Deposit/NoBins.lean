import BinMarket.Proofs.Deposit.Curve

/-!
Shapes over no bins at all. Only weights for no bin are refused for having none, so no strategy is
when it gets a range whose bounds are in order.
-/

namespace BinMarket

variable {w : Weights} {active lowest highest : Int}

namespace Weights

theorem set_ne_nil (w : Weights) (bin v : Int) : w.set bin v ≠ [] := by
  cases w
  case nil      => exact List.cons_ne_nil _ _
  case cons p w =>
    rw [set]
    split
    case isTrue  => exact List.cons_ne_nil _ _
    case isFalse => split <;> exact List.cons_ne_nil _ _

theorem ofPairs_ne_nil {pairs : List (Int × Int)} (h : pairs ≠ []) : ofPairs pairs ≠ [] := by
  obtain ⟨pairs, p, rfl⟩ := (List.eq_nil_or_concat pairs).resolve_left h
  rw [ofPairs, List.concat_eq_append, List.foldl_append]
  exact set_ne_nil _ _ _

theorem spread_ne_noBins (w : Weights) (bin : Int) : w.spread bin ≠ .error .noBins := by
  unfold spread
  dsimp only
  split
  case isTrue  => nofun
  case isFalse => split <;> nofun

end Weights

namespace Shape

theorem side_ne_noBins (w : Weights) (half : Option Int) (outermost : Option (Int × Int)) :
    side w half outermost ≠ .error .noBins := by
  unfold side
  split
  case h_3 => nofun
  all_goals exact w.spread_ne_noBins _

theorem sides_ne_noBins {α : Type} (xs ys : Weights) (half : Option Int) (f : Weights → Weights → α) :
    (do
      let yShares ← side ys half ys.head?
      let xShares ← side xs half xs.getLast?
      return f xShares yShares) ≠ (.error .noBins : Except Fault α) :=
  bind_ne_error (side_ne_noBins _ _ _) fun _ _ =>
    bind_ne_error (side_ne_noBins _ _ _) fun _ _ => ok_ne_error

-- Weights for at least one bin have a shape or fail for something else.
theorem ofWeights_ne_noBins (active : Int) (hw : w ≠ []) :
    ofWeights active w ≠ .error .noBins := by
  obtain ⟨p, w, rfl⟩ := List.exists_cons_of_ne_nil hw
  obtain ⟨q, hq⟩ : ∃ q, (p :: w).getLast? = some q := ⟨_, List.getLast?_eq_some_getLast hw⟩
  rw [ofWeights, List.head?_cons, hq]
  dsimp only
  split
  case isFalse => exact bind_ne_error nofun fun _ _ => sides_ne_noBins _ _ _ _
  case isTrue  =>
    split
    case h_1 => exact bind_ne_error nofun fun _ _ => sides_ne_noBins _ _ _ _
    case h_2 => nofun

end Shape

namespace Curve

theorem binary_ne_noBins (n : Int) : binary n ≠ .error .noBins := by
  unfold binary
  dsimp only
  split <;> nofun

theorem deviation_ne_noBins (lowest highest : Int) : deviation lowest highest ≠ .error .noBins := by
  unfold deviation
  dsimp only
  split <;> nofun

theorem shape_ne_noBins (active : Int) (h : lowest ≤ highest) :
    Shape.curve active (binsFrom lowest highest) ≠ .error .noBins := by
  refine bind_ne_error ?weights fun w hw => Shape.ofWeights_ne_noBins active ?shape
  case weights =>
    simp only [weights, min?_binsFrom h, max?_binsFrom h]
    refine bind_ne_error (deviation_ne_noBins _ _) fun d _ => bind_ne_error ?_ fun _ _ => ok_ne_error
    refine mapM_ne_error fun k _ => bind_ne_error ?_ fun _ _ => ok_ne_error
    exact bind_ne_error (binary_ne_noBins _) fun _ _ => ok_ne_error
  case shape =>
    simp only [weights, min?_binsFrom h, max?_binsFrom h] at hw
    obtain ⟨d, _, hw⟩ := bind_eq_ok_iff.mp hw
    obtain ⟨pairs, hpairs, hw⟩ := bind_eq_ok_iff.mp hw
    cases hw
    refine Weights.ofPairs_ne_nil ?_
    rintro rfl
    have hlength := (mapM_eq_ok_iff.mp hpairs).length_eq
    rw [binsFrom_eq_cons h] at hlength
    contradiction

end Curve

theorem Strategy.shape_ne_noBins (strategy : Strategy) (active : Int) (h : lowest ≤ highest) :
    strategy.shape active (binsFrom lowest highest) ≠ .error .noBins := by
  have hbins (f : Int → Int) : Weights.ofBins f (binsFrom lowest highest) ≠ [] := by
    rw [binsFrom_eq_cons h]
    exact Weights.ofPairs_ne_nil (List.cons_ne_nil _ _)
  cases strategy
  case spot   => exact Shape.ofWeights_ne_noBins active (hbins _)
  case bidAsk => exact Shape.ofWeights_ne_noBins active (hbins _)
  case curve  => exact Curve.shape_ne_noBins active h

end BinMarket
