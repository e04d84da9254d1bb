import BinMarket.Proofs.Bitmap.Search

/-!
The list of the arrays that a swap would visit first. A shorter list is the beginning of a longer
one, and the arrays follow one another along the way, so none is listed twice.
-/

namespace BinMarket.Locator

open Direction

variable {d : Direction} {tiers : List Tier} {m n : Nat} {active index i : Int}

@[simp] theorem upcoming_zero : upcoming d tiers 0 active = [] := rfl

theorem upcoming_of_none (h : next? d tiers active = none) : upcoming d tiers n active = [] := by
  cases n
  case zero => rfl
  case succ => rw [upcoming, h]

theorem upcoming_of_some (h : next? d tiers active = some index) :
    upcoming d tiers (n + 1) active = index :: upcoming d tiers n (BinArray.exit index d) := by
  rw [upcoming, h]

theorem length_upcoming_le (d : Direction) (tiers : List Tier) (n : Nat) (active : Int) :
    (upcoming d tiers n active).length ≤ n := by
  fun_induction upcoming d tiers n active
  case case1    => exact Nat.le_refl _
  case case2    => exact Nat.zero_le _
  case case3 hi => exact Nat.succ_le_succ hi

theorem take_upcoming (d : Direction) (tiers : List Tier) (m n : Nat) (active : Int) :
    (upcoming d tiers n active).take m = upcoming d tiers (min m n) active := by
  fun_induction upcoming d tiers n active generalizing m
  case case1    => rw [Nat.min_zero, List.take_nil, upcoming_zero]
  case case2 hn => rw [List.take_nil, upcoming_of_none hn]
  case case3 hn hi =>
    cases m
    case zero   => rw [Nat.zero_min, List.take_zero, upcoming_zero]
    case succ m => rw [List.take_succ_cons, hi, Nat.succ_min_succ, upcoming_of_some hn]

-- What a longer list has at a place is what any list that goes so far has there.
theorem getElem?_upcoming (h : m < n) :
    (upcoming d tiers n active)[m]? = (upcoming d tiers (m + 1) active)[m]? := by
  have ht := take_upcoming d tiers (m + 1) n active
  rw [Nat.min_eq_left h] at ht
  rw [←ht, List.getElem?_take_of_lt (Nat.lt_succ_self m)]

theorem reaches_of_mem_upcoming (h : i ∈ upcoming d tiers n active) :
    d.reaches (BinArray.indexOf active) i := by
  fun_induction upcoming d tiers n active
  case case1 => contradiction
  case case2 => contradiction
  case case3 hn hi =>
    have hr := reaches_of_next? hn
    cases List.mem_cons.mp h
    case inl he => exact he ▸ hr
    case inr hm =>
      have hx := BinArray.indexOf_exit _ d ▸ hi hm
      exact reaches_trans hr (reaches_trans (reaches_after ..) hx)

-- Each array is left before the next one is looked for.
theorem pairwise_upcoming (d : Direction) (tiers : List Tier) (n : Nat) (active : Int) :
    (upcoming d tiers n active).Pairwise fun i j => d.reaches (d.after i) j := by
  fun_induction upcoming d tiers n active
  case case1 => exact .nil
  case case2 => exact .nil
  case case3 hi =>
    refine .cons (fun j hj => ?_) hi
    exact BinArray.indexOf_exit _ d ▸ reaches_of_mem_upcoming hj

theorem nodup_upcoming (d : Direction) (tiers : List Tier) (n : Nat) (active : Int) :
    (upcoming d tiers n active).Nodup := by
  refine (pairwise_upcoming d tiers n active).imp fun {i j} hr he => ?_
  exact reaches_after_iff.mp hr (he ▸ reaches_refl ..)

end BinMarket.Locator
