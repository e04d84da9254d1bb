import BinMarket.Proofs.Bins
import BinMarket.Proofs.Deposit.Split
import Mathlib.Data.List.Nodup
import Mathlib.Data.List.Sort
import Mathlib.Tactic.Linarith

/-!
Shapes made from weights. Each side of the active bin shares out its ten thousandths among its own
bins, and keeps a bin that takes its token as long as one of them weighs anything.
-/

namespace BinMarket

variable {t : Token} {active lowest highest bin k r : Int} {bins keys : List Int} {f g : Int → Int}
  {half : Option Int}

-- The bins that may take a token: token X lies from the active bin up, and token Y from it down.
def Token.Accepts (t : Token) (active bin : Int) : Prop :=
  match t with
  | .x => active ≤ bin
  | .y => bin ≤ active

namespace Weights

-- The weights that a function gives to bins.
def on (bins : List Int) (f : Int → Int) : Weights := bins.map fun b => (b, f b)

theorem total_on (bins : List Int) (f : Int → Int) : (on bins f).total = (bins.map f).sum := by
  rw [total, on, List.map_map]
  rfl

theorem get?_on (bins : List Int) (f : Int → Int) (k : Int) :
    (on bins f).get? k = if k ∈ bins then some (f k) else none := by
  rw [get?, on]
  induction bins
  case nil          => rfl
  case cons b bs hi =>
    rw [List.map_cons, List.lookup_cons]
    by_cases hk : k = b
    case pos => simp [hk]
    case neg => simp [hi, hk, beq_false_of_ne hk]

-- A weight that is set takes its place among the bins in order, or that of an earlier weight.
theorem exists_set_on (hk : keys.Pairwise (· < ·)) (bin : Int) (f : Int → Int) :
    ∃ keys' : List Int, keys'.Pairwise (· < ·) ∧ (∀ k, k ∈ keys' ↔ k ∈ keys ∨ k = bin) ∧
      (on keys f).set bin (f bin) = on keys' f := by
  induction keys
  case nil            => exact ⟨[bin], List.pairwise_singleton .., by simp, rfl⟩
  case cons b keys hi =>
    have ⟨hb, hrest⟩ := List.pairwise_cons.mp hk
    have hset : (on (b :: keys) f).set bin (f bin) =
        if bin < b then (bin, f bin) :: (b, f b) :: on keys f
        else if bin = b then (bin, f bin) :: on keys f
        else (b, f b) :: (on keys f).set bin (f bin) := rfl
    rw [hset]
    split_ifs with hlt heq
    case pos =>
      have hbin := List.forall_mem_cons.mpr ⟨hlt, fun k hk => hlt.trans (hb k hk)⟩
      exact ⟨bin :: b :: keys, List.pairwise_cons.mpr ⟨hbin, hk⟩, by grind, rfl⟩
    case pos => exact ⟨b :: keys, hk, by grind, heq ▸ rfl⟩
    case neg =>
      have ⟨keys', hk', hmem, he⟩ := hi hrest
      refine ⟨b :: keys', List.pairwise_cons.mpr ⟨fun k hk => ?_, hk'⟩, by grind, ?_⟩
      · obtain hk | rfl := (hmem k).mp hk
        case inl => exact hb k hk
        case inr => omega
      · rw [he]
        rfl

-- Bins may be listed in any order and repeatedly: their weights are kept in order, each once.
theorem ofBins_eq (hk : keys.Pairwise (· < ·)) (h : ∀ k, k ∈ bins ↔ k ∈ keys) (f : Int → Int) :
    ofBins f bins = on keys f := by
  have hon : ∃ keys' : List Int, keys'.Pairwise (· < ·) ∧ (∀ k, k ∈ keys' ↔ k ∈ bins) ∧
      ofBins f bins = on keys' f := by
    clear h
    induction bins using List.reverseRecOn
    case nil                    => exact ⟨[], .nil, by simp, rfl⟩
    case append_singleton bs b hi =>
      have ⟨keys', hk', hmem, he⟩ := hi
      have ⟨keys'', hk'', hmem', he'⟩ := exists_set_on hk' b f
      refine ⟨keys'', hk'', fun k => ?_, ?_⟩
      · rw [hmem', hmem, List.mem_append, List.mem_singleton]
      · rw [ofBins, ofPairs, List.map_append, List.foldl_append, ←ofPairs, ←ofBins, he]
        exact he'
  have ⟨keys', hk', hmem, he⟩ := hon
  rw [he, hk'.eq_of_mem_iff hk fun k => (hmem k).trans (h k)]

theorem ofPairs_on (h : bins.Pairwise (· < ·)) : ofPairs (on bins f) = on bins f :=
  ofBins_eq h (fun _ => .rfl) f

-- The part of ten thousand that is due to a weight, rounded down.
def part (keys : List Int) (f : Int → Int) (k : Int) : Int := 10000 * f k / (keys.map f).sum

-- The part of ten thousand that a bin gets. One of them also gets what rounding leaves over.
def portion (keys : List Int) (f : Int → Int) (r k : Int) : Int :=
  part keys f k + if k = r then 10000 - (keys.map (part keys f)).sum else 0

-- What a bin gets when ten thousand is shared out, nothing when no bin weighs anything.
def shared (keys : List Int) (f : Int → Int) (r k : Int) : Int :=
  if (keys.map f).sum = 0 then 0 else portion keys f r k

-- What sharing out keeps of the weights it starts from.
structure Spreads (keys : List Int) (f g : Int → Int) : Prop where
  nonneg   : ∀ k ∈ keys, 0 ≤ g k
  positive : (∃ k ∈ keys, 0 < f k) → ∃ k ∈ keys, 0 < g k

section Spread

variable (h₀ : ∀ k ∈ keys, 0 ≤ f k)
include h₀

theorem sum_nonneg : 0 ≤ (keys.map f).sum := List.sum_nonneg (List.forall_mem_map.mpr h₀)

theorem sum_pos (hk : ∃ k ∈ keys, 0 < f k) : 0 < (keys.map f).sum := by
  have ⟨k, hk, hp⟩ := hk
  exact hp.trans_le
    (List.single_le_sum (List.forall_mem_map.mpr h₀) _ (List.mem_map_of_mem hk))

theorem spread_on (hr : r ∈ keys) (hz : (keys.map f).sum ≠ 0) :
    (on keys f).spread r = .ok (on keys (portion keys f r)) := by
  have hparts : (on keys f).map (fun p => (p.1, (10000 * p.2).fdiv (keys.map f).sum)) =
      on keys (part keys f) := by
    rw [on, List.map_map]
    refine List.map_congr_left fun k _ => ?_
    simp only [Function.comp_apply, part, Int.fdiv_eq_ediv_of_nonneg _ (sum_nonneg h₀)]
  simp only [spread, total_on, if_neg hz, hparts, get?_on, if_pos hr, Option.isNone_some,
    Bool.false_eq_true, if_false]
  rw [on, List.map_map]
  refine congrArg _ (List.map_congr_left fun k _ => ?_)
  by_cases hk : k = r <;> simp [portion, hk]

theorem part_nonneg (hk : k ∈ keys) : 0 ≤ part keys f k :=
  Int.ediv_nonneg (mul_nonneg (by decide) (h₀ k hk)) (sum_nonneg h₀)

omit h₀ in
theorem map_part (keys : List Int) (f : Int → Int) :
    keys.map (part keys f) = (keys.map f).map (10000 * · / (keys.map f).sum) := by
  rw [List.map_map]
  rfl

theorem sum_part_le (hz : (keys.map f).sum ≠ 0) : (keys.map (part keys f)).sum ≤ 10000 := by
  rw [map_part]
  exact sum_parts_le (lt_of_le_of_ne (sum_nonneg h₀) hz.symm) 10000

omit h₀ in
theorem sum_portion (hn : keys.Nodup) (hr : r ∈ keys) :
    (keys.map (portion keys f r)).sum = 10000 := by
  have h : (keys.map fun k => part keys f k +
      if id k = r then 10000 - (keys.map (part keys f)).sum else 0).sum = _ :=
    sum_add_once (by simpa using hn) (by simpa using hr)
  exact h.trans (add_sub_cancel ..)

omit h₀ in
theorem shared_eq (hz : (keys.map f).sum ≠ 0) : shared keys f r = portion keys f r :=
  funext fun _ => if_neg hz

theorem spread_eq (hr : r ∈ keys) : (on keys f).spread r = .ok (on keys (shared keys f r)) := by
  by_cases hz : (keys.map f).sum = 0
  case pos =>
    rw [spread, total_on, if_pos hz, on, List.map_map]
    simp only [on, shared, if_pos hz]
    rfl
  case neg => rw [spread_on h₀ hr hz, shared_eq hz]

theorem shared_nonneg (hk : k ∈ keys) : 0 ≤ shared keys f r k := by
  rw [shared]
  split
  case isTrue     => exact le_rfl
  case isFalse hz =>
    have := part_nonneg h₀ hk
    have := sum_part_le h₀ hz
    rw [portion]
    split <;> omega

theorem sum_shared (hn : keys.Nodup) (hr : r ∈ keys) (hk : ∃ k ∈ keys, 0 < f k) :
    (keys.map (shared keys f r)).sum = 10000 := by
  rw [shared_eq (sum_pos h₀ hk).ne', sum_portion hn hr]

theorem spreads_shared (hn : keys.Nodup) (hr : ∀ k ∈ keys, r ∈ keys) :
    Spreads keys f (shared keys f r) := by
  refine ⟨fun k hk => shared_nonneg h₀ hk, fun hpos => ?_⟩
  -- What the bins get adds up to ten thousand, so it cannot be zero for all of them.
  by_contra hc
  push Not at hc
  have hle := List.sum_le_card_nsmul _ 0 (List.forall_mem_map.mpr hc)
  have ⟨k, hk, _⟩ := hpos
  rw [sum_shared h₀ hn (hr k hk) hpos, nsmul_zero] at hle
  contradiction

end Spread

end Weights

-- The bins of a range that may take a token, in order.
def Token.among (t : Token) (active : Int) (bins : List Int) : List Int :=
  match t with
  | .x => bins.filter (· = active) ++ bins.filter (active < ·)
  | .y => bins.filter (· < active) ++ bins.filter (· = active)

theorem Token.mem_among : k ∈ t.among active bins ↔ k ∈ bins ∧ t.Accepts active k := by
  cases t
  all_goals
    simp only [among, Accepts, List.mem_append, List.mem_filter, decide_eq_true_eq, ←and_or_left]
    exact and_congr_right fun _ => by omega

-- The bin that the left over of a side goes to: the active bin of a range that it lies in, or else
-- the outermost bin.
def Token.keeper (t : Token) (active lowest highest : Int) : Int :=
  if lowest ≤ active ∧ active ≤ highest then active
  else
    match t with
    | .x => highest
    | .y => lowest

theorem Token.keeper_mem_among (h : k ∈ t.among active (binsFrom lowest highest)) :
    t.keeper active lowest highest ∈ t.among active (binsFrom lowest highest) := by
  rw [mem_among, mem_binsFrom] at h ⊢
  cases t <;> simp only [Accepts, keeper] at h ⊢ <;> split <;> omega

-- All bins of a range are on one side of an active bin outside of it.
theorem Token.among_eq (hr : ¬(lowest ≤ active ∧ active ≤ highest))
    (h : k ∈ t.among active (binsFrom lowest highest)) :
    t.among active (binsFrom lowest highest) = binsFrom lowest highest := by
  have hnone : (binsFrom lowest highest).filter (· = active) = [] :=
    List.filter_eq_nil_iff.mpr fun k hk he => hr (of_decide_eq_true he ▸ mem_binsFrom.mp hk)
  rw [mem_among, mem_binsFrom] at h
  cases t
  all_goals
    simp only [Accepts] at h
    simp only [among, hnone, List.nil_append, List.append_nil]
    refine List.filter_eq_self.mpr fun k hk => ?_
    rw [mem_binsFrom] at hk
    rw [decide_eq_true_eq]
    omega

theorem Token.place_among (hr : ¬(lowest ≤ active ∧ active ≤ highest))
    (h : k ∈ t.among active (binsFrom lowest highest)) :
    t.place (t.among active (binsFrom lowest highest)) = some (t.keeper active lowest highest) := by
  have ⟨hl, hh⟩ := mem_binsFrom.mp (mem_among.mp h).left
  rw [among_eq hr h]
  cases t
  case x => exact (getLast?_binsFrom (hl.trans hh)).trans (congrArg some (if_neg hr).symm)
  case y => exact (head?_binsFrom (hl.trans hh)).trans (congrArg some (if_neg hr).symm)

theorem Token.nodup_among (t : Token) (active : Int) (h : bins.Nodup) :
    (t.among active bins).Nodup := by
  cases t
  all_goals
    refine List.Nodup.append (h.filter _) (h.filter _) fun k hk hk' => ?_
    simp only [List.mem_filter, decide_eq_true_eq] at hk hk'
    omega

-- Off the active bin a weight counts twice, since the active bin counts half on each side.
def Weights.doubled (active : Int) (f : Int → Int) (k : Int) : Int :=
  if k = active then f k else 2 * f k

namespace Weights

theorem le_doubled (h : 0 ≤ f k) : f k ≤ doubled active f k := by
  rw [doubled]
  split <;> omega

-- Each side is shared out among its own bins.
theorem side_eq (t : Token) (h₀ : ∀ k ∈ t.among active (binsFrom lowest highest), 0 ≤ f k) :
    Shape.side (on (t.among active (binsFrom lowest highest)) f)
        (if lowest ≤ active ∧ active ≤ highest then some active else none)
        (t.place (on (t.among active (binsFrom lowest highest)) f)) =
      .ok (on (t.among active (binsFrom lowest highest))
        (shared (t.among active (binsFrom lowest highest)) f (t.keeper active lowest highest))) := by
  by_cases hr : lowest ≤ active ∧ active ≤ highest
  case pos =>
    have hmem : active ∈ t.among active (binsFrom lowest highest) :=
      Token.mem_among.mpr ⟨mem_binsFrom.mpr hr, by cases t <;> exact le_rfl⟩
    have hkeeper : t.keeper active lowest highest = active := by cases t <;> exact if_pos hr
    rw [if_pos hr, hkeeper]
    exact spread_eq h₀ hmem
  case neg =>
    rw [if_neg hr]
    cases hk : t.among active (binsFrom lowest highest)
    case nil => cases t <;> rfl
    case cons k keys =>
      have hmem : k ∈ t.among active (binsFrom lowest highest) := hk ▸ List.mem_cons_self
      have hplace := Token.place_among hr hmem
      rw [←hk, on, Token.place_map, hplace]
      exact spread_eq h₀ (Token.keeper_mem_among hmem)

theorem on_append (bins keys : List Int) (f : Int → Int) :
    on (bins ++ keys) f = on bins f ++ on keys f :=
  List.map_append

theorem double_filter_on {p : Int → Bool} (bins : List Int) (f : Int → Int)
    (hp : ∀ k, p k → k ≠ active) :
    ((on bins f).filter (p ·.1)).map (fun e => (e.1, 2 * e.2)) =
      on (bins.filter p) (doubled active f) := by
  rw [on, List.filter_map, List.map_map]
  refine List.map_congr_left fun k hk => ?_
  simp [doubled, hp k (List.mem_filter.mp hk).right]

theorem on_active (active : Int) (f : Int → Int) :
    on ((binsFrom lowest highest).filter (· = active)) (doubled active f) =
      if lowest ≤ active ∧ active ≤ highest then [(active, f active)] else [] := by
  have hn := nodup_binsFrom lowest highest
  by_cases hr : lowest ≤ active ∧ active ≤ highest
  case pos =>
    have hf : (binsFrom lowest highest).filter (· = active) = [active] :=
      filter_key_eq (by rwa [List.map_id']) (mem_binsFrom.mpr hr)
    simp [hr, hf, on, doubled]
  case neg =>
    have hf : (binsFrom lowest highest).filter (· = active) = [] :=
      List.filter_eq_nil_iff.mpr fun k hk he =>
        hr (of_decide_eq_true he ▸ mem_binsFrom.mp hk)
    simp [hr, hf, on]

end Weights

namespace Shape

theorem ofWeights_on (hle : lowest ≤ highest) (active : Int) (f : Int → Int) :
    ofWeights active (.on (binsFrom lowest highest) f) = (do
      let half := if lowest ≤ active ∧ active ≤ highest then some active else none
      let given (t : Token) := Weights.on (t.among active (binsFrom lowest highest))
        (Weights.doubled active f)
      let ys ← side (given .y) half (Token.y.place (given .y))
      let xs ← side (given .x) half (Token.x.place (given .x))
      return (binsFrom lowest highest).map fun b =>
        { bin := b, x := (Weights.get? xs b).getD 0, y := (Weights.get? ys b).getD 0 }) := by
  have hf : (Weights.on (binsFrom lowest highest) f).head? = some (lowest, f lowest) := by
    rw [Weights.on, List.head?_map, head?_binsFrom hle, Option.map_some]
  have hl : (Weights.on (binsFrom lowest highest) f).getLast? = some (highest, f highest) := by
    rw [Weights.on, List.getLast?_map, getLast?_binsFrom hle, Option.map_some]
  have hbelow := Weights.double_filter_on (p := (· < active)) (binsFrom lowest highest) f
    fun k hk => (of_decide_eq_true hk).ne
  have habove := Weights.double_filter_on (p := (active < ·)) (binsFrom lowest highest) f
    fun k hk => (of_decide_eq_true hk).ne'
  have hback (g : Int → BinShare) : (Weights.on (binsFrom lowest highest) f).map (g ·.1) =
      (binsFrom lowest highest).map g := by
    rw [Weights.on, List.map_map]
    rfl
  unfold ofWeights
  simp only [hf, hl, hbelow, habove, ←hback, Token.among, Weights.on_append, Weights.on_active]
  by_cases hr : lowest ≤ active ∧ active ≤ highest
  case pos =>
    simp only [if_pos hr, Weights.get?_on, mem_binsFrom]
    rfl
  case neg =>
    simp only [if_neg hr]
    rfl

-- A shape over a range of bins around the active one: no bin takes a token on the wrong side, and
-- each side that has a bin has one that takes its token.
structure Straddles (s : Shape) (active lowest highest : Int) : Prop where
  bins    : s.bins = binsFrom lowest highest
  nonneg  : ∀ b ∈ s, ∀ t, 0 ≤ b.of t
  offside : ∀ b ∈ s, ∀ t : Token, ¬t.Accepts active b.bin → b.of t = 0
  takers  : ∀ t : Token, (∃ bin ∈ binsFrom lowest highest, t.Accepts active bin) → s.takers t ≠ []

-- The centre of a range is on every side that has a bin.
theorem accepts_centre (hk : k ∈ binsFrom lowest highest) (ha : t.Accepts active k) :
    Curve.centre active lowest highest ∈ t.among active (binsFrom lowest highest) := by
  rw [mem_binsFrom] at hk
  rw [Token.mem_among, mem_binsFrom, Curve.centre]
  cases t <;> simp only [Token.Accepts] at ha ⊢ <;> omega

-- The shape that gives the bins on each side of the active one these parts.
def ofSides (active : Int) (bins : List Int) (parts : Token → Int → Int) : Shape :=
  bins.map fun b =>
    { bin := b
      x := ((Weights.on (Token.x.among active bins) (parts .x)).get? b).getD 0
      y := ((Weights.on (Token.y.among active bins) (parts .y)).get? b).getD 0 }

theorem bins_ofSides (active : Int) (bins : List Int) (parts : Token → Int → Int) :
    (ofSides active bins parts).bins = bins :=
  (List.map_map ..).trans (List.map_id _)

theorem of_of_mem_ofSides {b : BinShare} {parts : Token → Int → Int}
    (h : b ∈ ofSides active bins parts) (t : Token) :
    b.of t = if b.bin ∈ t.among active bins then parts t b.bin else 0 := by
  obtain ⟨k, _, rfl⟩ := List.mem_map.mp h
  cases t
  all_goals
    simp only [BinShare.of, Weights.get?_on]
    split <;> rfl

theorem straddles_ofSides {parts : Token → Int → Int}
    (h : ∀ t, Weights.Spreads (t.among active (binsFrom lowest highest)) f (parts t))
    (hc : 0 < f (Curve.centre active lowest highest)) :
    (ofSides active (binsFrom lowest highest) parts).Straddles active lowest highest where
  bins    := bins_ofSides ..
  nonneg  := by
    intro b hb t
    rw [of_of_mem_ofSides hb t]
    split
    case isTrue hk => exact (h t).nonneg _ hk
    case isFalse   => exact le_rfl
  offside := by
    intro b hb t ha
    rw [of_of_mem_ofSides hb t, if_neg fun hk => ha (Token.mem_among.mp hk).right]
  takers  := by
    intro t ⟨k, hk, ha⟩
    have ⟨k, hk, hp⟩ := (h t).positive ⟨_, accepts_centre hk ha, hc⟩
    have hbin : k ∈ (ofSides active (binsFrom lowest highest) parts).bins := by
      rw [bins_ofSides]
      exact (Token.mem_among.mp hk).left
    obtain ⟨b, hb, rfl⟩ := List.mem_map.mp hbin
    refine List.ne_nil_of_mem (mem_takers.mpr ⟨b, hb, ?_, rfl⟩)
    rwa [of_of_mem_ofSides hb t, if_pos hk]

theorem doubled_nonneg (active : Int) (h₀ : ∀ k ∈ bins, 0 ≤ f k) (t : Token) :
    ∀ k ∈ t.among active bins, 0 ≤ Weights.doubled active f k := by
  intro k hk
  have hk := h₀ k (Token.mem_among.mp hk).left
  exact hk.trans (Weights.le_doubled hk)

-- The shape that gives each side of a range what its weights are due.
def inProportion (active lowest highest : Int) (f : Int → Int) : Shape :=
  ofSides active (binsFrom lowest highest) fun t =>
    Weights.shared (t.among active (binsFrom lowest highest)) (Weights.doubled active f)
      (t.keeper active lowest highest)

theorem ofWeights_eq (hle : lowest ≤ highest) (active : Int)
    (h₀ : ∀ k ∈ binsFrom lowest highest, 0 ≤ f k) :
    ofWeights active (.on (binsFrom lowest highest) f) =
      .ok (inProportion active lowest highest f) := by
  rw [ofWeights_on hle]
  simp only [Weights.side_eq _ (doubled_nonneg active h₀ _)]
  rfl

-- Weights that are not negative, and positive in the centre, make a shape around the active bin.
theorem exists_ofWeights (hle : lowest ≤ highest) (active : Int) (h₀ : ∀ k, 0 ≤ f k)
    (hc : 0 < f (Curve.centre active lowest highest)) :
    ∃ s, ofWeights active (.on (binsFrom lowest highest) f) = .ok s ∧
      s.Straddles active lowest highest := by
  have h₀ : ∀ k ∈ binsFrom lowest highest, 0 ≤ f k := fun k _ => h₀ k
  have hspreads (t : Token) := Weights.spreads_shared (doubled_nonneg active h₀ t)
    (t.nodup_among active (nodup_binsFrom lowest highest)) fun _ => Token.keeper_mem_among
  exact ⟨_, ofWeights_eq hle active h₀,
    straddles_ofSides hspreads (hc.trans_le (Weights.le_doubled hc.le))⟩

end Shape

end BinMarket
