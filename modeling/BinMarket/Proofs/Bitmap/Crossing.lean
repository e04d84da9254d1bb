import BinMarket.Proofs.Bitmap.Exact
import Mathlib.Data.List.Perm.Subperm

/-!
The search for liquidity as a loop over indexes. It looks into the range that holds its index, and
without an answer it crosses to the first index past that range. No range is looked into twice, so
there is one look more than there are ranges at most, and the answer is that of the search.
-/

namespace BinMarket.Locator

open Direction

variable {d : Direction} {tiers : List Tier} {t : Tier} {looks : Nat} {index i j : Int}
  {o : Option Int}

-- The ranges that the loop looks into one after another, in so many looks.
def visited (d : Direction) (tiers : List Tier) : Nat → Int → List Tier
  | 0, _ => []
  | looks + 1, index =>
    match tiers.find? (·.Covers index) with
    | none => []
    | some t =>
      match t.next? d index with
      | some _ => [t]
      | none   => t :: visited d tiers looks (t.beyond d)

-- What the loop answers, unless its looks are used up before it does.
def searchWithin (d : Direction) (tiers : List Tier) : Nat → Int → Option (Option Int)
  | 0, _ => none
  | looks + 1, index =>
    match tiers.find? (·.Covers index) with
    | none => some none
    | some t =>
      match t.next? d index with
      | some found => some (some found)
      | none       => searchWithin d tiers looks (t.beyond d)

theorem covers_of_find? (h : tiers.find? (·.Covers index) = some t) : t ∈ tiers ∧ t.Covers index :=
  ⟨List.mem_of_find?_eq_some h, by simpa using List.find?_some h⟩

-- Whatever the loop still looks into lies ahead of it.
theorem exists_of_mem_visited (h : t ∈ visited d tiers looks index) :
    t ∈ tiers ∧ ∃ j, d.reaches index j ∧ t.Covers j := by
  fun_induction visited d tiers looks index
  case case1 => simp at h
  case case2 => simp at h
  case case3 u hf _ _ =>
    have ⟨hm, hc⟩ := covers_of_find? hf
    cases List.mem_singleton.mp h
    exact ⟨hm, _, reaches_refl .., hc⟩
  case case4 u hf _ hi =>
    have ⟨hm, hc⟩ := covers_of_find? hf
    cases List.mem_cons.mp h
    case inl h => exact h ▸ ⟨hm, _, reaches_refl .., hc⟩
    case inr h =>
      have ⟨hm', j, hr, hj⟩ := hi h
      exact ⟨hm', j, reaches_trans (Tier.reaches_beyond hc d) hr, hj⟩

theorem visited_nodup (d : Direction) (tiers : List Tier) (looks : Nat) (index : Int) :
    (visited d tiers looks index).Nodup := by
  fun_induction visited d tiers looks index
  case case1 => simp
  case case2 => simp
  case case3 => simp
  case case4 hi =>
    refine List.nodup_cons.mpr ⟨fun h => ?_, hi⟩
    have ⟨_, j, hr, hj⟩ := exists_of_mem_visited h
    exact not_covers_of_reaches_beyond (reaches_refl ..) hr hj

theorem length_visited_le (d : Direction) (tiers : List Tier) (looks : Nat) (index : Int) :
    (visited d tiers looks index).length ≤ tiers.length := by
  have hs : visited d tiers looks index ⊆ tiers := fun _ h => (exists_of_mem_visited h).left
  exact (List.subperm_of_subset (visited_nodup ..) hs).length_le

theorem length_visited_of_none (h : searchWithin d tiers looks index = none) :
    (visited d tiers looks index).length = looks := by
  fun_induction searchWithin d tiers looks index
  case case1 => rfl
  case case2 => contradiction
  case case3 => contradiction
  case case4 hf hn hi => simp [visited, hf, hn, hi h]

theorem exists_searchWithin (d : Direction) (index : Int) (h : tiers.length < looks) :
    ∃ o, searchWithin d tiers looks index = some o := by
  apply Option.ne_none_iff_exists'.mp
  intro hn
  have hle := length_visited_le d tiers looks index
  rw [length_visited_of_none hn] at hle
  exact absurd h (Nat.not_lt.mpr hle)

theorem search_of_not_covers (h : ∀ t ∈ tiers, ¬t.Covers index) : search d tiers index = none := by
  induction tiers
  case nil => rfl
  case cons t rest hi =>
    have ⟨ht, hr⟩ := List.forall_mem_cons.mp h
    rw [search, if_neg ht, hi hr]

theorem search_cons_of_covers (h : t.Covers index) :
    search d (t :: tiers) index = (t.next? d index).or (search d tiers (t.beyond d)) := by
  rw [search, if_pos h]
  cases t.next? d index <;> rfl

theorem search_cons_of_not_covers (h : ¬t.Covers index) :
    search d (t :: tiers) index = search d tiers index := by
  rw [search, if_neg h]

theorem not_covers_beyond (t : Tier) (d : Direction) : ¬t.Covers (t.beyond d) :=
  not_covers_of_reaches_beyond (reaches_refl ..) (reaches_refl ..)

-- Ranges that are met in turn can be looked through from the first one on each time: those that lie
-- behind do not hold the index any more.
theorem InTurn.search_eq (h : InTurn d tiers) (ht : t ∈ tiers) (hc : t.Covers index) :
    search d tiers index = (t.next? d index).or (search d tiers (t.beyond d)) := by
  induction h
  case nil => simp at ht
  case single u =>
    cases List.mem_singleton.mp ht
    rw [search_cons_of_covers hc, search_cons_of_not_covers (not_covers_beyond t d)]
  case cons u v rest _ hb _ hi =>
    cases List.mem_cons.mp ht
    case inl hu =>
      subst hu
      rw [search_cons_of_covers hc, search_cons_of_not_covers (not_covers_beyond t d)]
    case inr hm =>
      have hr := hb t hm index hc
      have hn := not_covers_of_reaches_beyond hr (reaches_refl ..)
      have hn' := not_covers_of_reaches_beyond hr (Tier.reaches_beyond hc d)
      rw [search_cons_of_not_covers hn, search_cons_of_not_covers hn']
      exact hi hm

theorem InTurn.eq_of_searchWithin (h : InTurn d (inOrder d tiers))
    (hs : searchWithin d tiers looks index = some o) : o = search d (inOrder d tiers) index := by
  fun_induction searchWithin d tiers looks index
  case case1 => contradiction
  case case2 hf =>
    cases hs
    refine (search_of_not_covers fun t ht => ?_).symm
    simpa using List.find?_eq_none.mp hf t (Pool.mem_inOrder.mp ht)
  case case3 t hf found hn =>
    cases hs
    have ⟨hm, hc⟩ := covers_of_find? hf
    rw [h.search_eq (Pool.mem_inOrder.mpr hm) hc, hn]
    rfl
  case case4 t hf hn hi =>
    have ⟨hm, hc⟩ := covers_of_find? hf
    rw [h.search_eq (Pool.mem_inOrder.mpr hm) hc, hn, hi hs]
    rfl

-- The loop has its answer within one look more than there are ranges.
theorem searchWithin_eq (p : Pool) (e : Option Extension) (active : Int)
    (h : (p.tiers e).length < looks) :
    searchWithin d (p.tiers e) looks (BinArray.indexOf active) = some (p.nextArray e d active) := by
  have ⟨o, ho⟩ := exists_searchWithin d (BinArray.indexOf active) h
  rw [ho, (Pool.inTurn_tiers p e d).eq_of_searchWithin ho]
  rfl

end BinMarket.Locator
