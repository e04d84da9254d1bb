import BinMarket.Proofs.Bitmap.Crossing
import BinMarket.Proofs.Swap.Capacity

/-!
Walks end, whatever the words, reserves and prices are. A round that leaves some input has moved on
along the way, and outside the bitmaps there is no further round, so the bins between the start and
the end of the bitmaps bound the rounds.
-/

namespace BinMarket

open Direction

variable {r : Route} {w w' : Walk} {n : Nat}

namespace Route

-- The rounds that a walk from a bin takes at most: one for each bin up to the end of the bitmaps and
-- one to find that they have ended.
def rounds (r : Route) (bin : Int) : Nat :=
  if r.Covers bin then r.remaining bin + 1 else 1

theorem rounds_pos (r : Route) (bin : Int) : 0 < r.rounds bin := by
  unfold rounds
  split <;> omega

theorem rounds_le (r : Route) (bin : Int) : r.rounds bin ≤ longest + 1 := by
  unfold rounds
  split
  case isTrue h  => exact Nat.succ_le_succ (remaining_le h)
  case isFalse h => exact Nat.le_add_left ..

end Route

namespace Walk

-- A walk with a number of rounds. There is no outcome when they are used up before the walk ends.
def runWithin (r : Route) : Nat → Walk → Option (Except Fault Walk)
  | 0, w     => if 0 < w.left then none else some (.ok w)
  | n + 1, w =>
    if 0 < w.left then
      match step r w with
      | .error f => some (.error f)
      | .ok w'   => runWithin r n w'
    else some (.ok w)

theorem runWithin_of_left (hl : ¬0 < w.left) : runWithin r n w = some (.ok w) := by
  cases n <;> rw [runWithin, if_neg hl]

-- Where a round leads that does not end the walk: to the next bin, or to another array past it.
inductive Onward (r : Route) (w w' : Walk) : Prop
  | next :
    r.nextArray w.active = some (BinArray.indexOf w.active) →
    w'.active = r.direction.after w.active → Onward r w w'
  | jump {index : Int} :
    r.nextArray w.active = some index → BinArray.indexOf w.active ≠ index →
    w'.active = BinArray.entry index r.direction →
    r.direction.reaches (r.direction.after w.active) w'.active → Onward r w w'

theorem onward_of_goes (h : Goes r w w') (hl : 0 < w'.left) : Onward r w w' := by
  cases round_of_step h.right
  case fill array bin f hn _ _ _ =>
    rw [left_advance] at hl
    refine .next hn ?_
    rw [active_advance hl, active_record, active_approach]
  case jump hn _ hi =>
    exact .jump hn hi rfl (BinArray.reaches_after_entry (Locator.reaches_of_next? hn) hi)

theorem Onward.covers (h : Onward r w w') : r.Covers w.active := by
  cases h
  case next hn _     => exact Route.covers_of_nextArray hn
  case jump hn _ _ _ => exact Route.covers_of_nextArray hn

theorem Onward.reaches (h : Onward r w w') :
    r.direction.reaches (r.direction.after w.active) w'.active := by
  cases h
  case next _ ha     => exact ha ▸ reaches_refl ..
  case jump _ _ _ hr => exact hr

theorem rounds_lt_of_goes (h : Goes r w w') (hl : 0 < w'.left) :
    r.rounds w'.active < r.rounds w.active := by
  have hlt := remaining_step h.right hl
  rw [Route.rounds, Route.rounds, if_pos (onward_of_goes h hl).covers]
  split <;> omega

-- No chain of rounds comes back to a bin, since each of them leads past the one that it starts from.
theorem reaches_of_goes (h : Relation.TransGen (Goes r) w w') (hl : 0 < w'.left) :
    r.direction.reaches (r.direction.after w.active) w'.active := by
  induction h
  case single h       => exact (onward_of_goes h hl).reaches
  case tail w₁ _ h hi =>
    have hr := reaches_trans (reaches_after ..) (onward_of_goes h hl).reaches
    exact reaches_trans (hi h.left) hr

-- The induction is on the rounds allowed. Each round uses up one of them and one at least of those
-- that the bins ahead bound.
theorem runWithin_eq (h : r.rounds w.active ≤ n) : runWithin r n w = some (run r w) := by
  induction n generalizing w
  case zero => exact absurd (r.rounds_pos w.active) (Nat.not_lt.mpr h)
  case succ n hi =>
    by_cases hl : 0 < w.left
    case neg => rw [runWithin_of_left hl, run_of_left hl]
    case pos =>
      rw [run_eq_bind hl, runWithin, if_pos hl]
      cases hs : step r w
      case error => rfl
      case ok w' =>
        by_cases hl' : 0 < w'.left
        case neg => exact (runWithin_of_left hl').trans (congrArg some (run_of_left hl').symm)
        case pos =>
          have hlt := rounds_lt_of_goes ⟨hl, hs⟩ hl'
          exact hi (by omega)

end Walk

namespace Pool

-- Every walk ends, whatever integers the words, the reserves and the prices are.
-- 1. The search looks into no range twice, and it has its answer within one look more than there are
--    ranges
-- 2. A round that leaves some input goes on to the next bin or jumps past it, so no chain of rounds
--    comes back to a bin
-- 3. Past all ranges a walk has its last round
-- 4. The bins ahead bound the rounds, and a walk that is allowed as many is not cut short
theorem walk_halts (p : Pool) (e : Option Extension) (arrays : List BinArray) (amount : Int)
    (d : Direction) (now : Int) :
    (∀ active looks,
      (Locator.visited d (p.tiers e) looks (BinArray.indexOf active)).Nodup ∧
      ((p.tiers e).length < looks →
        Locator.searchWithin d (p.tiers e) looks (BinArray.indexOf active) =
          some (p.nextArray e d active))) ∧
    (∀ w w', Walk.Goes (.of p e arrays d) w w' → 0 < w'.left →
      Walk.Onward (.of p e arrays d) w w') ∧
    (∀ w w', Relation.TransGen (Walk.Goes (.of p e arrays d)) w w' → 0 < w'.left →
      d.reaches (d.after w.active) w'.active) ∧
    (∀ w, (∀ t ∈ p.tiers e, ¬t.Covers (BinArray.indexOf w.active)) →
      Walk.step (.of p e arrays d) w = .error (.exhausted w.left w.active)) ∧
    (Route.of p e arrays d).rounds p.activeId ≤ Route.longest + 1 ∧
    ∀ n, (Route.of p e arrays d).rounds p.activeId ≤ n →
      Walk.runWithin (.of p e arrays d) n (.start p amount now) =
        some (Walk.run (.of p e arrays d) (.start p amount now)) := by
  refine ⟨fun active looks => ⟨Locator.visited_nodup .., Locator.searchWithin_eq p e active⟩,
    fun w w' h hl => Walk.onward_of_goes h hl, fun w w' h hl => Walk.reaches_of_goes h hl, ?_,
    Route.rounds_le .., fun n h => Walk.runWithin_eq h⟩
  intro w h
  refine Walk.step_of_none (Route.nextArray_eq_none_of_not_covers fun hc => ?_)
  have ⟨t, ht, htc⟩ := exists_covers_iff (p := p).mpr hc
  exact h t ht htc

-- A pool with all bits from array 0 on, also those past its own bitmap.
def flooded : Pool := { sparse with words := sparse.words.setIfInBounds 8 (-1) }

-- The way up in it, on which array 2 is missing.
def floodedRoute : Route := .of flooded (some sparseExtension) sparseArrays .yToX

-- The search is done within four looks, the first round leads to the next bin, and past the bitmaps
-- there would be none. A walk finds out what is missing long before its rounds are used up.
theorem walk_halts_flooded :
    (flooded.tiers (some sparseExtension)).length < 4 ∧
    Locator.searchWithin .yToX (flooded.tiers (some sparseExtension)) 4
      (BinArray.indexOf flooded.activeId) =
        some (flooded.nextArray (some sparseExtension) .yToX flooded.activeId) ∧
    (∃ w, Walk.Goes floodedRoute (.start flooded 500 1000) w ∧ w.left = 399 ∧
      Walk.Onward floodedRoute (.start flooded 500 1000) w ∧
      reaches .yToX (after .yToX flooded.activeId) w.active) ∧
    (∀ t ∈ flooded.tiers (some sparseExtension), ¬t.Covers (BinArray.indexOf 500000)) ∧
    Walk.step floodedRoute { Walk.start flooded 500 1000 with active := 500000 } =
      .error (.exhausted 500 500000) ∧
    floodedRoute.rounds flooded.activeId ≤ 931841 ∧
    ∃ o, Walk.runWithin floodedRoute 931841 (.start flooded 500 1000) = some o ∧
      o.map (·.active) = .error (.arrayNotSupplied 2 399 140) := by
  have ⟨hsearch, honward, hreaches, hpast, hle, hrun⟩ :=
    walk_halts flooded (some sparseExtension) sparseArrays 500 .yToX 1000
  have hlooks : (flooded.tiers (some sparseExtension)).length < 4 := by decide +kernel
  have hclear : ∀ t ∈ flooded.tiers (some sparseExtension),
      ¬t.Covers (BinArray.indexOf 500000) := by decide +kernel
  have hok : (Walk.step floodedRoute (.start flooded 500 1000)).map (·.left) = .ok 399 := by
    decide +kernel
  have ⟨w, hw, hl⟩ := exists_of_map_eq_ok hok
  have hgoes : Walk.Goes floodedRoute (.start flooded 500 1000) w := ⟨by decide, hw⟩
  have hleft : 0 < w.left := by omega
  exact ⟨hlooks, (hsearch _ 4).right hlooks,
    ⟨w, hgoes, hl, honward _ w hgoes hleft, hreaches _ w (.single hgoes) hleft⟩,
    hclear, hpast _ hclear, hle, _, hrun _ hle, by decide +kernel⟩

end Pool

end BinMarket
