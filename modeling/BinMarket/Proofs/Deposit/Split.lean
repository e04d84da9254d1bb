import BinMarket.Deposit.Plan
import BinMarket.Proofs.Sums

/-!
How a total is split among the bins of a shape. Each bin gets what is due to its share, rounded down,
and one bin of those that take the token also gets what that leaves over.
-/

namespace BinMarket

variable {α β : Type} {t : Token} {xs : List α} {x : α} {s : Shape} {total bin : Int}
  {b : BinShare}

namespace Token

-- The one among those that take a token that its left over goes to: the last one for token X and
-- the first one for token Y.
def place (t : Token) (xs : List α) : Option α :=
  match t with
  | .x => xs.getLast?
  | .y => xs.head?

theorem place_map (t : Token) (f : α → β) (xs : List α) :
    t.place (xs.map f) = (t.place xs).map f := by
  cases t
  case x => exact List.getLast?_map
  case y => exact List.head?_map

theorem place_eq_none_iff : t.place xs = none ↔ xs = [] := by
  cases t
  case x => exact List.getLast?_eq_none_iff
  case y => exact List.head?_eq_none_iff

theorem mem_of_place (h : t.place xs = some x) : x ∈ xs := by
  cases t
  case x => exact List.mem_of_getLast? h
  case y => exact List.mem_of_head? h

end Token

-- The share of one token.
def BinShare.of (b : BinShare) : Token → Int
  | .x => b.x
  | .y => b.y

namespace Shape

def bins (s : Shape) : List Int := s.map (·.bin)

-- The bins that take a token.
def takers (s : Shape) (t : Token) : List Int := bins (s.filter (0 < ·.of t))

-- The bin that the left over of a token goes to: the highest one that takes token X, and the lowest
-- one that takes token Y.
def keeper? (s : Shape) (t : Token) : Option Int := t.place (s.takers t)

-- The part of a total that is due to a bin's share, rounded down.
def due (s : Shape) (t : Token) (total : Int) (b : BinShare) : Int :=
  total * b.of t / sumOf (s.map (·.of t))

-- What rounding down leaves over.
def surplus (s : Shape) (t : Token) (total : Int) : Int := total - sumOf (s.map (s.due t total))

-- What a bin gets of a total.
def allotted (s : Shape) (t : Token) (total : Int) (b : BinShare) : Int :=
  if total ≤ 0 then 0
  else s.due t total b + if some b.bin = s.keeper? t then s.surplus t total else 0

theorem allotted_of_pos (hp : 0 < total) (hk : s.keeper? t = some bin) :
    s.allotted t total = fun b => s.due t total b + if b.bin = bin then s.surplus t total else 0 := by
  funext b
  simp only [allotted, if_neg hp.not_ge, hk, Option.some.injEq]

theorem allotted_of_not_pos (hp : ¬0 < total) : s.allotted t total = fun _ => 0 :=
  funext fun _ => if_pos (not_lt.mp hp)

theorem mem_takers : bin ∈ s.takers t ↔ ∃ b ∈ s, 0 < b.of t ∧ b.bin = bin := by
  simp [takers, bins, and_assoc]

-- The places of the bins that take a token, and what stands in these places.
theorem map_takers (s : Shape) (t : Token) :
    ((List.range s.length).filter fun i => 0 < (s.map (·.of t)).getD i 0).map (s[·]?) =
      (s.filter (0 < ·.of t)).map some := by
  have hall : (List.range s.length).map (s[·]?) = s.map some :=
    List.ext_getElem? fun i => by by_cases hi : i < s.length <;> simp [hi]
  have hp : (fun i => decide (0 < (s.map (·.of t)).getD i 0)) =
      (fun o : Option BinShare => decide (0 < o.elim 0 (·.of t))) ∘ (s[·]?) := by
    funext i
    cases h : s[i]? <;> simp [List.getD_eq_getElem?_getD, h]
  rw [hp, ←List.filter_map, hall, List.filter_map]
  rfl

-- A shape whose bins can be told apart and whose shares are not negative.
structure Sound (s : Shape) : Prop where
  nodup  : s.bins.Nodup
  nonneg : ∀ b ∈ s, ∀ t, 0 ≤ b.of t

namespace Sound

variable (h : s.Sound)
include h

theorem shares_nonneg (t : Token) : 0 ≤ sumOf (s.map (·.of t)) := by
  refine List.sum_nonneg fun n hn => ?_
  obtain ⟨b, hb, rfl⟩ := List.mem_map.mp hn
  exact h.nonneg b hb t

theorem shares_pos (ht : s.takers t ≠ []) : 0 < sumOf (s.map (·.of t)) := by
  have ⟨bin, hbin⟩ := List.exists_mem_of_ne_nil _ ht
  have ⟨b, hb, hpos, _⟩ := mem_takers.mp hbin
  refine hpos.trans_le (List.single_le_sum (fun n hn => ?_) _ (List.mem_map_of_mem hb))
  obtain ⟨b, hb, rfl⟩ := List.mem_map.mp hn
  exact h.nonneg b hb t

theorem due_nonneg (ht : 0 ≤ total) (hb : b ∈ s) : 0 ≤ s.due t total b :=
  Int.ediv_nonneg (mul_nonneg ht (h.nonneg b hb t)) (h.shares_nonneg t)

-- Two bins of one id are one bin.
theorem eq_of_bin {b' : BinShare} (hb : b ∈ s) (hb' : b' ∈ s) (he : b.bin = b'.bin) : b = b' :=
  List.inj_on_of_nodup_map h.nodup hb hb' he

-- Only a bin that takes a token gets the left over.
theorem pos_of_keeper? (hb : b ∈ s) (hk : some b.bin = s.keeper? t) : 0 < b.of t := by
  have ⟨b', hb', hpos, he⟩ := mem_takers.mp (Token.mem_of_place hk.symm)
  exact h.eq_of_bin hb' hb he ▸ hpos

theorem allotted_of_share_eq_zero (hb : b ∈ s) (hz : b.of t = 0) : s.allotted t total b = 0 := by
  have hk : some b.bin ≠ s.keeper? t := fun hk => (h.pos_of_keeper? hb hk).ne' hz
  simp [allotted, due, hz, hk]

section Total

variable (ht : s.takers t ≠ [])
include ht

omit h ht in
theorem map_due (s : Shape) (t : Token) (total : Int) :
    s.map (s.due t total) = (s.map (·.of t)).map (total * · / (s.map (·.of t)).sum) := by
  rw [List.map_map]
  rfl

theorem surplus_nonneg (total : Int) : 0 ≤ s.surplus t total := by
  rw [surplus, sub_nonneg, sumOf_eq_sum, map_due]
  exact sum_parts_le (h.shares_pos ht) total

-- Each bin that takes the token loses less than one unit by the rounding.
theorem surplus_lt (hp : 0 < total) : s.surplus t total < (s.takers t).length := by
  have hc : (s.map (·.of t)).countP (· ≠ 0) = (s.takers t).length := by
    rw [List.countP_map, List.countP_eq_length_filter, takers, bins, List.length_map]
    congr 1
    refine List.filter_congr fun b hb => ?_
    have := h.nonneg b hb t
    simp only [Function.comp_apply, ne_eq, decide_eq_decide]
    omega
  have hd := lt_sum_parts (h.shares_pos ht) hp.ne'
  rw [hc, ←map_due] at hd
  rw [surplus, sumOf_eq_sum]
  omega

theorem sum_allotted (hp : 0 < total) : sumOf (s.map (s.allotted t total)) = total := by
  cases hk : s.keeper? t
  case none     => exact absurd (Token.place_eq_none_iff.mp hk) ht
  case some bin =>
    have hbin : bin ∈ s.map (·.bin) := by
      have ⟨b, hb, _, he⟩ := mem_takers.mp (Token.mem_of_place hk)
      exact List.mem_map.mpr ⟨b, hb, he⟩
    rw [allotted_of_pos hp hk, sumOf_eq_sum, sum_add_once h.nodup hbin, surplus, sumOf_eq_sum,
      add_sub_cancel]

end Total

theorem due_le_allotted (hp : 0 < total) (hb : b ∈ s) :
    s.due t total b ≤ s.allotted t total b := by
  rw [allotted, if_neg hp.not_ge, le_add_iff_nonneg_right]
  split
  case isTrue hk =>
    refine h.surplus_nonneg (fun hn => ?_) total
    exact absurd (mem_takers.mpr ⟨b, hb, h.pos_of_keeper? hb hk, rfl⟩) (hn ▸ List.not_mem_nil)
  case isFalse => exact le_rfl

theorem allotted_nonneg (ht : 0 ≤ total) (hb : b ∈ s) : 0 ≤ s.allotted t total b := by
  by_cases hp : 0 < total
  case pos => exact (h.due_nonneg ht hb).trans (h.due_le_allotted hp hb)
  case neg => rw [allotted_of_not_pos hp]

theorem split_eq {i : Nat} (hi : s[i]? = some b) (hk : s.keeper? t = some b.bin)
    (hp : 0 < total) : split total (s.map (·.of t)) i = s.map (s.allotted t total) := by
  have hparts : ((s.map (·.of t)).map fun n => (total * n).fdiv (sumOf (s.map (·.of t)))) =
      s.map (s.due t total) := by
    rw [List.map_map]
    exact List.map_congr_left fun _ _ => Int.fdiv_eq_ediv_of_nonneg _ (h.shares_nonneg t)
  rw [split, hparts, allotted_of_pos hp hk]
  exact modify_map_eq h.nodup hi

-- A total can be split unless it is positive and no bin takes the token.
theorem amounts_eq (t : Token) (total : Int) :
    amounts t total (s.map (·.of t)) t.place =
      if 0 < total ∧ s.takers t = [] then .error (.tokenWithoutBins t total)
      else .ok (s.map (s.allotted t total)) := by
  by_cases hp : 0 < total
  case neg =>
    rw [amounts, if_pos (not_lt.mp hp), if_neg (fun hn => hp hn.left), List.length_map,
      allotted_of_not_pos hp, List.map_const']
  case pos =>
    have hmap := congrArg t.place (map_takers s t)
    rw [Token.place_map, Token.place_map] at hmap
    rw [amounts, if_neg hp.not_ge, List.length_map]
    cases hi : t.place ((List.range s.length).filter fun i => 0 < (s.map (·.of t)).getD i 0)
    case none =>
      rw [hi, Option.map_none, eq_comm, Option.map_eq_none_iff] at hmap
      have hn : s.takers t = [] := by simp [takers, bins, Token.place_eq_none_iff.mp hmap]
      rw [if_pos ⟨hp, hn⟩]
    case some i =>
      rw [hi, Option.map_some, eq_comm, Option.map_eq_some_iff] at hmap
      have ⟨b, hb, he⟩ := hmap
      have hk : s.keeper? t = some b.bin := by
        rw [keeper?, takers, bins, Token.place_map, hb, Option.map_some]
      have hn : s.takers t ≠ [] := fun hn => by simp [keeper?, hn, Token.place_eq_none_iff.mpr] at hk
      rw [if_neg fun hc => hn hc.right]
      exact congrArg _ (h.split_eq he.symm hk hp)

end Sound

end Shape

end BinMarket
