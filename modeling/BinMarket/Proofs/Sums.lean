import BinMarket.Scale
import Mathlib.Algebra.BigOperators.Group.List.Lemmas
import Mathlib.Algebra.Order.BigOperators.Group.List
import Mathlib.Algebra.BigOperators.Ring.List
import Mathlib.Algebra.Order.Ring.Int
import Mathlib.Tactic.Linarith

/-!
Sums of integers, and what rounding down their parts does to them.
-/

namespace BinMarket

variable {α κ : Type} [DecidableEq κ] {d c : Int} {k : κ} {ks : List κ} {xs : List α} {a : α}
  {f : α → Int} {p : α → Bool} {key : α → κ}

theorem sumOf_eq_sum (xs : List Int) : sumOf xs = xs.sum := rfl

-- Rounding down part by part gives no more than rounding down the whole.
theorem sum_map_div_le (hd : 0 < d) (xs : List Int) : (xs.map (· / d)).sum ≤ xs.sum / d := by
  rw [Int.le_ediv_iff_mul_le hd, ←List.sum_map_mul_right]
  calc (xs.map fun x => x / d * d).sum
    _ ≤ (xs.map id).sum := List.sum_le_sum fun x _ => Int.ediv_mul_le x hd.ne'
    _ = xs.sum          := by rw [List.map_id]

-- It takes less than one unit from each part, and nothing from a part that is zero.
theorem sum_le_sum_map_div (hd : 0 < d) (xs : List Int) :
    xs.sum ≤ (xs.map (· / d)).sum * d + xs.countP (· ≠ 0) * (d - 1) := by
  induction xs
  case nil          => simp
  case cons x xs hi =>
    rw [List.sum_cons, List.map_cons, List.sum_cons, List.countP_cons, add_mul]
    by_cases hx : x = 0
    case pos =>
      simp only [hx, Int.zero_ediv]
      simpa using hi
    case neg =>
      have hm := Int.mul_ediv_add_emod x d
      have hl := Int.emod_lt_of_pos x hd
      rw [mul_comm] at hm
      simp only [hx, ne_eq, not_false_eq_true, decide_true, if_true, Nat.cast_add, Nat.cast_one,
        add_mul, one_mul] at *
      omega

section Parts

variable {ws : List Int} (hw : 0 < ws.sum)
include hw

-- The parts of a whole by weight, rounded down, are no more than the whole.
theorem sum_parts_le (c : Int) : (ws.map (c * · / ws.sum)).sum ≤ c := by
  have h := sum_map_div_le hw (ws.map (c * ·))
  rw [List.map_map, List.sum_map_mul_left, List.map_id', Int.mul_ediv_cancel _ hw.ne'] at h
  exact h

-- They fall short of it by less than one unit for each weight that is not zero.
theorem lt_sum_parts (hc : c ≠ 0) :
    c - ws.countP (· ≠ 0) < (ws.map (c * · / ws.sum)).sum := by
  have h := sum_le_sum_map_div hw (ws.map (c * ·))
  have hcount : (ws.map (c * ·)).countP (· ≠ 0) = ws.countP (· ≠ 0) := by
    rw [List.countP_map]
    refine List.countP_congr fun w _ => ?_
    simp [hc]
  have hpos : (0 : Int) < ws.countP (· ≠ 0) := by
    have ⟨w, hw, h₀⟩ : ∃ w ∈ ws, w ≠ 0 := by
      by_contra hn
      push Not at hn
      exact hw.ne' (List.sum_eq_zero hn)
    exact_mod_cast List.countP_pos_iff.mpr ⟨w, hw, decide_eq_true h₀⟩
  rw [List.map_map, List.sum_map_mul_left, List.map_id', hcount] at h
  refine lt_of_mul_lt_mul_right ?_ hw.le
  calc (c - ws.countP (· ≠ 0)) * ws.sum
    _ = c * ws.sum - ws.countP (· ≠ 0) * ws.sum       := sub_mul ..
    _ < c * ws.sum - ws.countP (· ≠ 0) * (ws.sum - 1) :=
      sub_lt_sub_left (mul_lt_mul_of_pos_left (sub_one_lt _) hpos) _
    _ ≤ (ws.map (c * · / ws.sum)).sum * ws.sum        := sub_le_iff_le_add.mpr h

end Parts

-- What is left out of a sum does not count when it is zero.
theorem sum_filter_of_zero (h : ∀ x ∈ xs, ¬p x → f x = 0) :
    ((xs.filter p).map f).sum = (xs.map f).sum := by
  induction xs
  case nil          => rfl
  case cons x xs hi =>
    have hi := hi fun x hx => h x (List.mem_cons_of_mem _ hx)
    by_cases hx : p x
    case pos => simp [hx, hi]
    case neg => simp [hx, hi, h x List.mem_cons_self hx]

-- A key finds its one entry.
theorem filter_key_eq (hn : (xs.map key).Nodup) (ha : a ∈ xs) : xs.filter (key · = key a) = [a] := by
  induction xs
  case nil          => contradiction
  case cons x xs hi =>
    have ⟨hx, hn⟩ := List.nodup_cons.mp hn
    cases ha
    case head =>
      rw [List.filter_cons_of_pos (by simp), List.filter_eq_nil_iff.mpr]
      intro y hy he
      exact hx (of_decide_eq_true he ▸ List.mem_map_of_mem hy)
    case tail ha =>
      rw [List.filter_cons_of_neg, hi hn ha]
      simp only [decide_eq_true_eq]
      exact fun he => hx (he ▸ List.mem_map_of_mem ha)

-- What is added where a key stands is added once when each key stands once.
theorem sum_add_once (hn : (xs.map key).Nodup) (hk : k ∈ xs.map key) :
    (xs.map fun x => f x + if key x = k then c else 0).sum = (xs.map f).sum + c := by
  have h : (xs.map fun x => if key x = k then c else 0) =
      (xs.map key).map fun k' => if k' = k then c else 0 := by
    rw [List.map_map]
    rfl
  rw [List.sum_map_add, h, List.sum_map_ite_eq, List.count_eq_one_of_mem hn hk]
  simp [Function.comp_def]

-- What is added at one place is added where that place's key stands.
theorem modify_map_eq {i : Nat} {a : α} (hn : (xs.map key).Nodup) (ha : xs[i]? = some a) :
    (xs.map f).modify i (· + c) = xs.map fun x => f x + if key x = key a then c else 0 := by
  refine List.ext_getElem? fun j => ?_
  rw [List.getElem?_modify, List.getElem?_map, List.getElem?_map]
  cases hx : xs[j]?
  case none   => rfl
  case some x =>
    have hi : i < (xs.map key).length := by
      rw [List.length_map]
      exact (List.getElem?_eq_some_iff.mp ha).choose
    have hj : (xs.map key)[i]? = (xs.map key)[j]? ↔ key x = key a := by
      simp [ha, hx, eq_comm]
    by_cases hij : i = j
    case pos => simp [hij, hj.mp (by rw [hij])]
    case neg => simp [hij, mt hj.mpr fun h => hij ((List.getElem?_inj hi hn).mp h)]

-- A sum can be taken key by key.
theorem sum_by_key (hn : ks.Nodup) (hk : ∀ x ∈ xs, key x ∈ ks) :
    (xs.map f).sum = (ks.map fun k => ((xs.filter (key · = k)).map f).sum).sum := by
  induction xs
  case nil          => simp
  case cons x xs hi =>
    have hrest := hi fun x hx => hk x (List.mem_cons_of_mem _ hx)
    have hsplit (k : κ) : (((x :: xs).filter (key · = k)).map f).sum =
        ((xs.filter (key · = k)).map f).sum + if id k = key x then f x else 0 := by
      by_cases hx : key x = k
      case pos => simp [hx, add_comm]
      case neg => simp [hx, Ne.symm hx]
    simp only [hsplit]
    rw [sum_add_once (by simpa using hn) (by simpa using hk x List.mem_cons_self), ←hrest,
      List.map_cons, List.sum_cons, add_comm]

end BinMarket
