import BinMarket.Proofs.Bitmap.Exact
import BinMarket.Proofs.Swap.Answer
import BinMarket.Swap.Stepwise

/-!
Jumping changes nothing. The walk of a quote and the plain walk from bin to bin end alike: with the
same fills, the same arrays and the same last bin, or with the same fault.
-/

namespace BinMarket

open Direction

variable {p : Pool} {e : Option Extension} {arrays : List BinArray} {r : Route} {w w' : Walk}
  {array : BinArray} {d : Direction} {active amount slippage now index id : Int} {f : Fault}

-- A fault without the bin at which a walk came upon it. What was left and which array was missing
-- stay.
def Fault.unplaced : Fault → Fault
  | .exhausted left _              => .exhausted left 0
  | .arrayNotSupplied index left _ => .arrayNotSupplied index left 0
  | f                              => f

-- The input that was left when the bins gave out.
def Fault.shortfall? : Fault → Option Int
  | .exhausted left _          => some left
  | .arrayNotSupplied _ left _ => some left
  | _                          => none

@[simp] theorem Fault.shortfall?_unplaced (f : Fault) : f.unplaced.shortfall? = f.shortfall? := by
  cases f <;> rfl

theorem mapError_bind {ε α β : Type} {t : ε → ε} {x y : Except ε α} (k : α → Except ε β)
    (h : x.mapError t = y.mapError t) : (x.bind k).mapError t = (y.bind k).mapError t := by
  cases x <;> cases y <;> simp_all [Except.mapError, Except.bind]

namespace BinArray

theorem reaches_indexOf_after (d : Direction) (bin : Int) :
    d.reaches (indexOf bin) (indexOf (d.after bin)) := by
  cases d <;> simp only [reaches, after, indexOf] <;> omega

-- The first bin of another array that is met on the way is that array's entry.
theorem after_eq_entry (hi : indexOf id ≠ index) (ha : indexOf (d.after id) = index) :
    d.after id = entry index d := by
  cases d <;> simp only [after, indexOf, entry, highest, lowest] at * <;> omega

theorem reaches_indexOf_after_of_ne (hi : indexOf id ≠ index) (hr : d.reaches (indexOf id) index) :
    d.reaches (indexOf (d.after id)) index := by
  cases d <;> simp only [after, indexOf, reaches] at * <;> omega

end BinArray

namespace Route

theorem nextArray_eq_none_of_not_covers (h : ¬r.Covers active) : r.nextArray active = none := by
  rw [nextArray_eq]
  exact Pool.nextArray_eq_none_of_not_covers h

theorem covers_of_nextArray (h : r.nextArray active = some index) : r.Covers active := by
  by_contra hc
  rw [nextArray_eq_none_of_not_covers hc] at h
  contradiction

variable (hf : r.pool.WordsFit r.extension)
include hf

theorem nextArray_eq_some_iff : r.nextArray active = some index ↔
    r.Covers active ∧ r.pool.isLiquid r.extension index = true ∧
    r.direction.reaches (BinArray.indexOf active) index ∧
    ∀ j, r.pool.isLiquid r.extension j = true →
      r.direction.reaches (BinArray.indexOf active) j → r.direction.reaches index j := by
  rw [nextArray_eq]
  exact hf.nextArray_eq_some_iff

theorem isLiquid_of_nextArray (hn : r.nextArray active = some (BinArray.indexOf active)) :
    r.isLiquid active = true :=
  ((nextArray_eq_some_iff hf).mp hn).right.left

theorem isLiquid_eq_false_of_nextArray (hn : r.nextArray active = some index)
    (hi : BinArray.indexOf active ≠ index) : r.isLiquid active = false := by
  have ⟨_, _, hr, hm⟩ := (nextArray_eq_some_iff hf).mp hn
  cases hq : r.isLiquid active
  case false => rfl
  case true  => exact absurd (reaches_antisymm hr (hm _ hq (reaches_refl ..))) hi

theorem nextArray_after (hn : r.nextArray active = some index)
    (hi : BinArray.indexOf active ≠ index) :
    r.nextArray (r.direction.after active) = some index := by
  have ⟨hc, hq, hr, hm⟩ := (nextArray_eq_some_iff hf).mp hn
  have hra := BinArray.reaches_indexOf_after r.direction active
  have hr' := BinArray.reaches_indexOf_after_of_ne hi hr
  rw [nextArray_eq_some_iff hf]
  exact ⟨Pool.covers_of_reaches hc (hf.covers_of_isLiquid hq) hra hr', hq, hr',
    fun j hj hrj => hm j hj (reaches_trans hra hrj)⟩

theorem nextArray_entry (hn : r.nextArray active = some index) :
    r.nextArray (BinArray.entry index r.direction) =
      some (BinArray.indexOf (BinArray.entry index r.direction)) := by
  rw [nextArray_eq, BinArray.indexOf_entry] at *
  exact hf.nextArray_of_holds hn (BinArray.holds_iff.mpr (BinArray.indexOf_entry ..))

theorem isLiquid_eq_false_of_nextArray_eq_none (hn : r.nextArray active = none)
    (hc : r.Covers active) : r.isLiquid active = false := by
  rw [nextArray_eq] at hn
  have hnone := (hf.nextArray_eq_none_iff.mp hn).resolve_left (not_not_intro hc)
  cases hq : r.isLiquid active
  case false => rfl
  case true  => exact absurd (reaches_refl ..) (hnone _ hq)

theorem nextArray_after_eq_none (hn : r.nextArray active = none) (hc : r.Covers active) :
    r.nextArray (r.direction.after active) = none := by
  rw [nextArray_eq] at *
  have hnone := (hf.nextArray_eq_none_iff.mp hn).resolve_left (not_not_intro hc)
  refine hf.nextArray_eq_none_iff.mpr (.inr fun j hj hr => hnone j hj ?_)
  exact reaches_trans (BinArray.reaches_indexOf_after ..) hr

end Route

namespace Walk

theorem runPlain_eq_bind (hl : 0 < w.left) : runPlain r w = plainStep r w >>= runPlain r := by
  rw [runPlain, if_pos hl]
  split
  case h_1 hs => rw [hs]; rfl
  case h_2 hs => rw [hs]; rfl

theorem runPlain_of_left (hl : ¬0 < w.left) : runPlain r w = .ok w := by
  rw [runPlain, if_neg hl]

theorem plainStep_of_not_covers (hc : ¬r.Covers w.active) :
    plainStep r w = .error (.exhausted w.left w.active) := by
  rw [plainStep, if_neg hc]

theorem plainStep_of_not_liquid (hc : r.Covers w.active) (hq : r.isLiquid w.active = false) :
    plainStep r w = .ok { w with active := r.direction.after w.active } := by
  rw [plainStep, if_pos hc, hq]
  rfl

theorem plainStep_of_not_supplied (hc : r.Covers w.active) (hq : r.isLiquid w.active = true)
    (hs : r.supplied? (BinArray.indexOf w.active) = none) :
    plainStep r w = .error (.arrayNotSupplied (BinArray.indexOf w.active) w.left w.active) := by
  rw [plainStep, if_pos hc, if_pos hq, hs]

theorem plainStep_of_supplied (hc : r.Covers w.active) (hq : r.isLiquid w.active = true)
    (hs : r.supplied? (BinArray.indexOf w.active) = some array) :
    plainStep r w = array.bin w.active >>= visit r (w.approach array) := by
  rw [plainStep, if_pos hc, if_pos hq, hs]
  rfl

theorem touch_touch (w : Walk) (a : BinArray) : (w.touch a).touch a = w.touch a := by
  have ⟨b, hb, hi⟩ := exists_mem_touched w a
  have hany : (w.touch a).touched.any (·.index == a.index) = true :=
    List.any_eq_true.mpr ⟨b, hb, by simpa using hi⟩
  rw [touch, if_pos hany]

theorem touch_update (w : Walk) (a : BinArray) (id : Int) (fee : DynamicFee) :
    ({ w with active := id, fee := fee } : Walk).touch a =
      { w.touch a with active := id, fee := fee } := by
  unfold touch
  dsimp only
  split <;> rfl

-- Coming to an array by a jump into it leaves the same notes as coming to it bin by bin.
theorem approach_approach (w : Walk) (a : BinArray) (id : Int) :
    ({ w.approach a with active := id } : Walk).approach a =
      ({ w with active := id } : Walk).approach a := by
  have h₁ := touch_update (w.touch a) a id (w.fee.track w.active)
  have h₂ := touch_update w a id w.fee
  rw [touch_touch] at h₁
  have h₃ := congrArg (fun w' : Walk => { w' with fee := w.fee.track id }) h₁
  have h₄ := congrArg (fun w' : Walk => { w' with fee := w.fee.track id }) h₂
  exact h₃.trans h₄.symm

section WordsFit

variable (hf : r.pool.WordsFit r.extension)
include hf

-- In an array that the search answers with, both walks do the same.
theorem step_eq_plainStep (hn : r.nextArray w.active = some (BinArray.indexOf w.active)) :
    step r w = plainStep r w := by
  have hc := ((Route.nextArray_eq_some_iff hf).mp hn).left
  have hq := Route.isLiquid_of_nextArray hf hn
  cases hs : r.supplied? (BinArray.indexOf w.active)
  case none       => rw [step_of_not_supplied hn hs, plainStep_of_not_supplied hc hq hs]
  case some array => rw [step_of_holds hn hs rfl, plainStep_of_supplied hc hq hs]

-- The plain walk gets to where the other one jumps. The induction is on the bins that remain, and
-- the search keeps its answer from bin to bin until the array is reached.
theorem runPlain_entry (hl : 0 < w.left) (hn : r.nextArray w.active = some index)
    (hi : BinArray.indexOf w.active ≠ index) :
    runPlain r w = runPlain r { w with active := BinArray.entry index r.direction } := by
  induction hm : r.remaining w.active using Nat.strongRecOn generalizing w
  case ind m ih =>
    have hc := ((Route.nextArray_eq_some_iff hf).mp hn).left
    have hq := Route.isLiquid_eq_false_of_nextArray hf hn hi
    have hn' := Route.nextArray_after hf hn hi
    rw [runPlain_eq_bind hl, plainStep_of_not_liquid hc hq]
    by_cases ha : BinArray.indexOf (r.direction.after w.active) = index
    case pos =>
      rw [BinArray.after_eq_entry hi ha]
      rfl
    case neg =>
      have hlt := hm ▸ Route.remaining_after hc
      exact ih _ hlt (w := { w with active := r.direction.after w.active }) hl hn' ha rfl

theorem runPlain_of_none (hl : 0 < w.left) (hn : r.nextArray w.active = none) :
    ∃ id, runPlain r w = .error (.exhausted w.left id) := by
  induction hm : r.remaining w.active using Nat.strongRecOn generalizing w
  case ind m ih =>
    rw [runPlain_eq_bind hl]
    by_cases hc : r.Covers w.active
    case neg =>
      rw [plainStep_of_not_covers hc]
      exact ⟨_, rfl⟩
    case pos =>
      rw [plainStep_of_not_liquid hc (Route.isLiquid_eq_false_of_nextArray_eq_none hf hn hc)]
      have hlt := hm ▸ Route.remaining_after hc
      exact ih _ hlt (w := { w with active := r.direction.after w.active }) hl
        (Route.nextArray_after_eq_none hf hn hc) rfl

theorem runPlain_of_not_supplied (hl : 0 < w.left) (hn : r.nextArray w.active = some index)
    (hs : r.supplied? index = none) :
    ∃ id, runPlain r w = .error (.arrayNotSupplied index w.left id) := by
  by_cases hi : BinArray.indexOf w.active = index
  case pos =>
    subst hi
    rw [runPlain_eq_bind hl, ←step_eq_plainStep hf hn, step_of_not_supplied hn hs]
    exact ⟨_, rfl⟩
  case neg =>
    have hn' := Route.nextArray_entry hf hn
    have hc := ((Route.nextArray_eq_some_iff hf).mp hn').left
    have hq := Route.isLiquid_of_nextArray hf hn'
    let id := BinArray.entry index r.direction
    have hb := runPlain_eq_bind (r := r) (w := { w with active := id }) hl
    rw [runPlain_entry hf hl hn hi, hb,
      plainStep_of_not_supplied hc hq (by rwa [BinArray.indexOf_entry]), BinArray.indexOf_entry]
    exact ⟨_, rfl⟩

-- After a jump the plain walk goes on as it does when it comes to the array by itself.
theorem runPlain_jump (hl : 0 < w.left) (hn : r.nextArray w.active = some index)
    (hs : r.supplied? index = some array) :
    runPlain r { w.approach array with active := BinArray.entry index r.direction } =
      runPlain r { w with active := BinArray.entry index r.direction } := by
  have hn' := Route.nextArray_entry hf hn
  have hc := ((Route.nextArray_eq_some_iff hf).mp hn').left
  have hq := Route.isLiquid_of_nextArray hf hn'
  rw [←BinArray.indexOf_entry index r.direction] at hs
  let id := BinArray.entry index r.direction
  have hj := runPlain_eq_bind (r := r) (w := { w.approach array with active := id }) (by simpa)
  have hp := runPlain_eq_bind (r := r) (w := { w with active := id }) hl
  rw [plainStep_of_supplied hc hq hs, approach_approach] at hj
  rw [plainStep_of_supplied hc hq hs] at hp
  exact hj.trans hp.symm

theorem run_eq_runPlain :
    (run r w).mapError Fault.unplaced = (runPlain r w).mapError Fault.unplaced := by
  fun_induction run r w
  case case3 w hl => rw [runPlain_of_left hl]
  case case1 w hl f hs =>
    -- The plain walk may still pass unmarked bins before it fails, but it fails with the same input.
    cases hn : r.nextArray w.active
    case none =>
      obtain ⟨id, hp⟩ := runPlain_of_none hf hl hn
      cases (step_of_none hn).symm.trans hs
      rw [hp]
      rfl
    case some index =>
      cases ha : r.supplied? index
      case none =>
        obtain ⟨id, hp⟩ := runPlain_of_not_supplied hf hl hn ha
        cases (step_of_not_supplied hn ha).symm.trans hs
        rw [hp]
        rfl
      case some array =>
        by_cases hi : BinArray.indexOf w.active = index
        case pos =>
          rw [runPlain_eq_bind hl, ←step_eq_plainStep hf (hi ▸ hn), hs]
          rfl
        case neg => simp [step_of_jump hn ha hi] at hs
  case case2 w hl w' hs ih =>
    rw [ih]
    -- A fill is one step of the plain walk. A jump is as many as there are bins up to the array.
    cases round_of_step hs
    case fill hn ha hb hfill =>
      rw [runPlain_eq_bind hl, ←step_eq_plainStep hf hn, hs]
      rfl
    case jump hn ha hi => rw [runPlain_entry hf hl hn hi, runPlain_jump hf hl hn ha]

end WordsFit

end Walk

namespace Pool

-- A quote is what the plain walk gives, in every field, and it fails just when the plain walk does,
-- for the same reason and with the same input left.
theorem quote_eq_stepwiseQuote (hf : p.WordsFit e) (ha : 0 ≤ amount) (hs : 0 ≤ slippage)
    (hm : slippage ≤ DynamicFee.basisPoints) (arrays : List BinArray) (d : Direction) (now : Int) :
    (p.quote e arrays amount d slippage now).mapError Fault.unplaced =
      (p.stepwiseQuote e arrays amount d slippage now).mapError Fault.unplaced := by
  rw [quote_eq_bind ha hs hm]
  exact mapError_bind _ (Walk.run_eq_runPlain (r := .of p e arrays d) hf)

theorem quote_eq_stepwiseQuote_sparse :
    sparse.WordsFit (some sparseExtension) ∧
    ((sparse.stepwiseQuote (some sparseExtension) sparseArrays 500 .xToY 50 1000).mapError
      Fault.unplaced).map (·.amountOut) = .ok 298 := by
  refine ⟨wordsFit_sparse, ?_⟩
  rw [←quote_eq_stepwiseQuote wordsFit_sparse (by decide) (by decide) (by decide)]
  decide +kernel

end Pool

end BinMarket
