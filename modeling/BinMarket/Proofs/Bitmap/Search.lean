import BinMarket.Bitmap.Locator
import BinMarket.Proofs.Bitmap.Nearest

/-!
The search for liquidity is exact. The ranges of a pool follow one another without a gap, so an
answer is the nearest marked array on the way, and no answer means that there is none.
-/

namespace BinMarket

open Direction

variable {d : Direction} {p : Pool} {e : Option Extension} {index active bin i j : Int}

namespace Locator

variable {tiers : List Tier} {t : Tier}

-- Ranges that a swap meets in turn: each one is left into the next, and none lies before another.
inductive InTurn (d : Direction) : List Tier → Prop
  | nil : InTurn d []
  | single (t : Tier) : InTurn d [t]
  | cons {t u : Tier} {rest : List Tier} :
    u.Covers (t.beyond d) → (∀ v ∈ u :: rest, ∀ j, v.Covers j → d.reaches (t.beyond d) j) →
    InTurn d (u :: rest) → InTurn d (t :: u :: rest)

theorem not_covers_of_reaches_beyond (h : d.reaches (t.beyond d) i) (hr : d.reaches i j) :
    ¬t.Covers j := by
  rintro ⟨_, _⟩
  cases d <;> simp only [reaches, Tier.beyond] at * <;> omega

theorem nearest_search (hs : ∀ t ∈ tiers, t.Sized) (ht : InTurn d tiers)
    (hc : ∃ t ∈ tiers, t.Covers index) :
    d.Nearest (fun j => ∃ t ∈ tiers, t.Marked j) index (search d tiers index) := by
  induction ht generalizing index
  case nil => simp at hc
  case single t =>
    simp only [List.mem_singleton, exists_eq_left] at hc ⊢
    have hn := Tier.nearest_next? (d := d) (hs t (List.mem_singleton.mpr rfl)) hc
    simp only [search, if_pos hc]
    split
    case h_1 hf => exact hf ▸ hn
    case h_2 hf => exact hf ▸ hn
  case cons t u rest hu hb hr hi =>
    replace hi := fun {i} => @hi i fun v hv => hs v (List.mem_cons_of_mem _ hv)
    simp only [List.mem_cons (b := t), exists_eq_or_imp] at hc ⊢
    rw [search]
    split
    case isTrue hct =>
      have hn := Tier.nearest_next? (d := d) (hs t List.mem_cons_self) hct
      split
      case h_1 found hf =>
        rw [hf] at hn
        refine hn.or_left ?_
        rintro k ⟨v, hv, hm⟩
        exact reaches_trans (Tier.reaches_beyond hn.right.left.left d) (hb v hv k hm.left)
      case h_2 hf =>
        rw [hf] at hn
        refine (hi ⟨u, List.mem_cons_self, hu⟩).or_right (Tier.reaches_beyond hct d) hn ?_
        rintro k _ ⟨v, hv, hm⟩
        exact hb v hv k hm.left
    case isFalse hct =>
      obtain ⟨v, hv, hcv⟩ := hc.resolve_left hct
      refine (hi ⟨v, hv, hcv⟩).or_right (reaches_refl ..) (fun k hk hm => ?_) fun _ hk _ => hk
      exact not_covers_of_reaches_beyond (hb v hv _ hcv) hk hm.left

end Locator

end BinMarket
