import BinMarket.Proofs.Swap.Trace

/-!
Walks in step. Walks that read the same do the same, and a walk whose rounds are matched by those of
another one, up to a last round of that other one, ends where the other one ends or farther on.
-/

namespace BinMarket

open Direction

variable {r r' : Route} {s u v w w' : Walk} {arrays : List BinArray}

-- The same way with other arrays at hand.
def Route.withArrays (r : Route) (arrays : List BinArray) : Route := { r with arrays }

namespace Walk

theorem run_of_goes (h : Goes r w w') : run r w = run r w' := by
  rw [run_eq_bind h.left, h.right]
  rfl

theorem run_of_reached (h : Reached r s w) : run r s = run r w := by
  induction h
  case refl         => rfl
  case tail _ hg hi => rw [hi, run_of_goes hg]

theorem reaches_active_of_goes (h : Goes r w w') : r.direction.reaches w.active w'.active := by
  cases round_of_step h.right
  case fill array bin f _ _ _ _ =>
    simpa [active_record] using
      reaches_active_advance ((w.approach array).record bin f) r.direction
  case jump hn _ hi =>
    have hr := BinArray.reaches_after_entry (Locator.reaches_of_next? hn) hi
    exact reaches_trans (reaches_after ..) hr

theorem suffix_touched_of_goes (h : Goes r w w') : w.touched <:+ w'.touched := by
  cases round_of_step h.right
  case fill => simpa using suffix_touched_touch w _
  case jump => exact suffix_touched_touch w _

-- A total of which no fill has less than nothing never falls.
theorem total_le_of_goes {part : Fill → Int} (h : Goes r w w')
    (hp : ∀ {array bin f}, r.supplied? (BinArray.indexOf w.active) = some array →
      array.bin w.active = .ok bin →
      bin.fill (w.fee.track w.active) w.left r.direction = .ok f → 0 ≤ part f) :
    w.total part ≤ w'.total part := by
  cases round_of_step h.right
  case fill array bin f _ hs hb hf =>
    simpa using total_le_record (hp hs hb hf) (w.approach array) bin
  case jump => simp [total]

-- A step reads the direction, the search and the arrays at hand, and nothing else of a route.
theorem step_congr (hd : r.direction = r'.direction)
    (hn : ∀ bin, r.nextArray bin = r'.nextArray bin)
    (hs : ∀ index, r.supplied? index = r'.supplied? index) (w : Walk) : step r w = step r' w := by
  simp only [step, visit, hd, hn, hs]

theorem run_congr (h : ∀ w, step r w = step r' w) (w : Walk) : run r w = run r' w := by
  fun_induction run r w
  case case1 hl _ hs    => rw [run_eq_bind hl, ←h, hs]; rfl
  case case2 hl _ hs hi => rw [run_eq_bind hl, ←h, hs, hi]; rfl
  case case3 hl         => rw [run_of_left hl]

-- A round needs no more than the array that it notes.
theorem Round.withArrays (h : Round r w w')
    (ha : ∀ a ∈ w'.touched, (r.withArrays arrays).supplied? a.index = r.supplied? a.index) :
    Round (r.withArrays arrays) w w' := by
  cases h
  case fill array bin f hn hs hb hf =>
    have ⟨a, hm, ha'⟩ := exists_mem_touched_of_supplied w hs
    have hs' := ha a (by simpa using hm)
    rw [ha'] at hs'
    exact .fill hn (hs'.trans hs) hb hf
  case jump index array hn hs hi =>
    have ⟨a, hm, ha'⟩ := exists_mem_touched_of_supplied w hs
    have hs' := ha a hm
    rw [ha'] at hs'
    exact .jump hn (hs'.trans hs) hi

-- What a walk has reached it reaches with any arrays of which those that it touched are the same.
theorem reached_withArrays (h : Reached r s w)
    (ha : ∀ a ∈ w.touched, (r.withArrays arrays).supplied? a.index = r.supplied? a.index) :
    Reached (r.withArrays arrays) s w := by
  induction h
  case refl         => exact .refl
  case tail _ hg hi =>
    have hr := (round_of_step hg.right).withArrays ha
    exact .tail (hi fun a hm => ha a ((suffix_touched_of_goes hg).subset hm))
      ⟨hg.left, step_of_round hr⟩

-- The induction follows the walk on the right, which keeps `I`. `R` relates the walks while both go
-- on, and `Q` the end of the one on the left to whatever the other one comes to from there.
theorem exists_run_of_simulates {I : Walk → Prop} {R Q : Walk → Walk → Prop}
    (hkeep : ∀ {w v}, I w → Goes r w v → I v) (hleft : ∀ {u w}, R u w → 0 < w.left)
    (hstep : ∀ {u w v}, I w → R u w → Goes r w v →
      ∃ u', Goes r u u' ∧ (R u' v ∨ u'.left ≤ 0 ∧ Q u' v))
    (hlater : ∀ {u w v}, I w → Q u w → Goes r w v → Q u v) (hi : I w) (h : R u w)
    (hrun : run r w = .ok w') : ∃ u', run r u = .ok u' ∧ Q u' w' := by
  fun_induction run r w generalizing u
  case case1              => contradiction
  case case3 hl           => exact absurd (hleft h) hl
  case case2 w hl v hs ih =>
    have hv := hkeep hi ⟨hl, hs⟩
    obtain ⟨u', hg, hr | ⟨hz, hq⟩⟩ := hstep hi h ⟨hl, hs⟩
    case inl =>
      rw [run_of_goes hg]
      exact ih hv hr hrun
    case inr =>
      have hend {x : Walk} (hx : Reached r v x) : I x ∧ Q u' x := by
        induction hx
        case refl          => exact ⟨hv, hq⟩
        case tail _ hg' ih => exact ⟨hkeep ih.left hg', hlater ih.left ih.right hg'⟩
      refine ⟨u', ?_, (hend (reached_of_run hrun).left).right⟩
      rw [run_of_goes hg, run_of_left (not_lt.mpr hz)]

end Walk

end BinMarket
