import BinMarket.Bitmap.Liquidity
import BinMarket.Proofs.Direction
import BinMarket.Proofs.Swap.Fill
import BinMarket.Swap.Quote
import Mathlib.Logic.Relation

/-!
The rounds of a walk. A round fills the active bin or jumps to a later array, and every walk that
ends is a chain of rounds. Whatever holds at the start and is kept by both kinds holds throughout.
-/

namespace BinMarket

variable {r : Route} {s w w' : Walk} {a array : BinArray} {b bin : Bin} {f : Fill} {index id : Int}

theorem Route.nextArray_eq (r : Route) (active : Int) :
    r.nextArray active = r.pool.nextArray r.extension r.direction active := by
  rw [nextArray, Pool.nextArray, r.tiers_eq]

namespace Walk

-- Goes on to the next bin while some input is left.
def advance (w : Walk) (d : Direction) : Walk :=
  if 0 < w.left then { w with active := d.after w.active } else w

-- Takes note of an array and of the distance of the active bin.
def approach (w : Walk) (array : BinArray) : Walk :=
  { w.touch array with fee := w.fee.track w.active }

theorem visit_eq_ok_iff : visit r w b = .ok w' ↔
    ∃ f, b.fill w.fee w.left r.direction = .ok f ∧ w' = (w.record b f).advance r.direction := by
  rw [visit]
  cases b.fill w.fee w.left r.direction
  case error e =>
    constructor
    case mp  => intro h; cases h
    case mpr => rintro ⟨_, hf, _⟩; cases hf
  case ok f =>
    constructor
    case mp  => exact fun h => ⟨f, rfl, (Except.ok.inj h).symm⟩
    case mpr => rintro ⟨_, hf, rfl⟩; cases hf; rfl

inductive Round (r : Route) (w : Walk) : Walk → Prop
  | fill {array : BinArray} {bin : Bin} {f : Fill} :
    r.nextArray w.active = some (BinArray.indexOf w.active) →
    r.supplied? (BinArray.indexOf w.active) = some array → array.bin w.active = .ok bin →
    bin.fill (w.fee.track w.active) w.left r.direction = .ok f →
    Round r w (((w.approach array).record bin f).advance r.direction)
  | jump {index : Int} {array : BinArray} :
    r.nextArray w.active = some index → r.supplied? index = some array →
    BinArray.indexOf w.active ≠ index →
    Round r w { w.approach array with active := BinArray.entry index r.direction }

@[simp] theorem left_touch (w : Walk) (a : BinArray) : (w.touch a).left = w.left := by
  unfold touch; split <;> rfl

@[simp] theorem filled_touch (w : Walk) (a : BinArray) : (w.touch a).filled = w.filled := by
  unfold touch; split <;> rfl

@[simp] theorem fee_touch (w : Walk) (a : BinArray) : (w.touch a).fee = w.fee := by
  unfold touch; split <;> rfl

@[simp] theorem active_approach (w : Walk) (a : BinArray) : (w.approach a).active = w.active :=
  active_touch ..

@[simp] theorem left_approach (w : Walk) (a : BinArray) : (w.approach a).left = w.left :=
  left_touch ..

@[simp] theorem filled_approach (w : Walk) (a : BinArray) : (w.approach a).filled = w.filled :=
  filled_touch ..

@[simp] theorem fee_approach (w : Walk) (a : BinArray) :
    (w.approach a).fee = w.fee.track w.active := rfl

@[simp] theorem touched_approach (w : Walk) (a : BinArray) :
    (w.approach a).touched = (w.touch a).touched := rfl

theorem step_of_none (hn : r.nextArray w.active = none) :
    step r w = .error (.exhausted w.left w.active) := by
  rw [step, hn]

theorem step_of_not_supplied (hn : r.nextArray w.active = some index)
    (hs : r.supplied? index = none) :
    step r w = .error (.arrayNotSupplied index w.left w.active) := by
  rw [step, hn]
  simp only [hs]

theorem step_of_holds (hn : r.nextArray w.active = some index)
    (hs : r.supplied? index = some array) (hi : BinArray.indexOf w.active = index) :
    step r w = array.bin w.active >>= visit r (w.approach array) := by
  have hh : BinArray.Holds index (w.touch array).active := by
    rw [BinArray.holds_iff, active_touch, hi]
  rw [step, hn]
  simp only [hs]
  rw [if_pos hh]
  exact congrArg (array.bin · >>= visit r (w.approach array)) (active_touch w array)

theorem step_of_jump (hn : r.nextArray w.active = some index)
    (hs : r.supplied? index = some array) (hi : BinArray.indexOf w.active ≠ index) :
    step r w = .ok { w.approach array with active := BinArray.entry index r.direction } := by
  have hh : ¬BinArray.Holds index (w.touch array).active := by
    rw [BinArray.holds_iff, active_touch]
    exact hi
  rw [step, hn]
  simp only [hs]
  rw [if_neg hh]
  rfl

theorem round_of_step (h : step r w = .ok w') : Round r w w' := by
  cases hn : r.nextArray w.active
  case none => simp [step_of_none hn] at h
  case some index =>
    cases hs : r.supplied? index
    case none => simp [step_of_not_supplied hn hs] at h
    case some array =>
      by_cases hi : BinArray.indexOf w.active = index
      case neg =>
        cases (step_of_jump hn hs hi).symm.trans h
        exact .jump hn hs hi
      case pos =>
        subst hi
        rw [step_of_holds hn hs rfl] at h
        cases hb : array.bin w.active
        case error => rw [hb] at h; contradiction
        case ok bin =>
          rw [hb] at h
          have ⟨f, hf, hw⟩ := visit_eq_ok_iff.mp h
          rw [hw]
          exact .fill hn hs hb (by simpa using hf)

theorem step_of_round (h : Round r w w') : step r w = .ok w' := by
  cases h
  case fill hn hs hb hf =>
    rw [step_of_holds hn hs rfl, hb]
    exact visit_eq_ok_iff.mpr ⟨_, by simpa using hf, rfl⟩
  case jump hn hs hi => exact step_of_jump hn hs hi

-- One step from the head of the loop to the next time there.
def Goes (r : Route) (w w' : Walk) : Prop := 0 < w.left ∧ step r w = .ok w'

abbrev Reached (r : Route) : Walk → Walk → Prop := Relation.ReflTransGen (Goes r)

theorem run_of_left (hl : ¬0 < w.left) : run r w = .ok w := by
  rw [run, if_neg hl]

theorem run_eq_bind (hl : 0 < w.left) : run r w = step r w >>= run r := by
  rw [run, if_pos hl]
  split
  case h_1 hs => rw [hs]; rfl
  case h_2 hs => rw [hs]; rfl

theorem reached_of_run (h : run r w = .ok w') : Reached r w w' ∧ w'.left ≤ 0 := by
  fun_induction run r w
  case case1 hl _ hs => contradiction
  case case2 hl w₁ hs hi =>
    have ⟨hr, hl'⟩ := hi h
    exact ⟨.head ⟨hl, hs⟩ hr, hl'⟩
  case case3 hl =>
    cases h
    exact ⟨.refl, not_lt.mp hl⟩

end Walk

end BinMarket
