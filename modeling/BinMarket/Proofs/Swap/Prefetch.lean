import BinMarket.Proofs.Bitmap.Upcoming
import BinMarket.Proofs.Swap.Accounts
import BinMarket.Proofs.Swap.Faults

/-!
Arrays fetched ahead of a swap. A walk touches the arrays of the prefetch list one after another,
however its bins are filled, so the first array that it lacks is the next one of the list.
-/

namespace BinMarket

open Direction

variable {p : Pool} {e : Option Extension} {arrays : List BinArray} {r : Route} {s w w' : Walk}
  {array : BinArray} {d : Direction} {amount slippage now index active left bin id : Int}
  {q : SwapQuote} {k : Nat}

namespace BinArray

theorem after_eq_exit (ha : indexOf (d.after id) ≠ indexOf id) :
    d.after id = exit (indexOf id) d := by
  cases d <;> simp only [after, indexOf, exit, highest, lowest] at * <;> omega

end BinArray

namespace Walk

-- What a walk has touched and what is upcoming from a bin on is what was upcoming at the start.
def Lists (r : Route) (s w : Walk) (bin : Int) : Prop :=
  ∀ n, Locator.upcoming r.direction r.tiers (w.touched.length + n) s.active =
    w.touched.reverse.map (·.index) ++ Locator.upcoming r.direction r.tiers n bin

-- The array that comes after those touched is a new one, and with it the list is one longer.
theorem Lists.not_touched (h : Lists r s w bin) (hn : r.nextArray bin = some index) :
    ∀ a ∈ w.touched, a.index ≠ index := by
  have hnd := Locator.nodup_upcoming r.direction r.tiers (w.touched.length + 1) s.active
  rw [h 1, Locator.upcoming_of_some hn, List.nodup_append] at hnd
  intro a ha he
  have hm : a.index ∈ w.touched.reverse.map (·.index) :=
    List.mem_map.mpr ⟨a, List.mem_reverse.mpr ha, rfl⟩
  exact hnd.right.right _ hm index List.mem_cons_self he

theorem Lists.approach (h : Lists r s w bin) (hn : r.nextArray bin = some index)
    (hs : r.supplied? index = some array) :
    Lists r s (w.approach array) (BinArray.exit index r.direction) := by
  have hi := BinArray.index_of_find? hs
  have hnew : w.touched.any (·.index == array.index) = false := by
    simpa [hi] using h.not_touched hn
  have ht : (w.approach array).touched = array :: w.touched := by
    rw [touched_approach, touch, hnew]
    rfl
  intro n
  have hl := h (n + 1)
  rw [Locator.upcoming_of_some hn] at hl
  rw [ht, List.length_cons, Nat.add_assoc, Nat.add_comm 1, hl]
  simp [hi]

-- Where a walk stands that goes by the list: before an array that it has not touched yet, or within
-- the last one touched.
inductive Abreast (r : Route) (s w : Walk) : Prop
  | before : Lists r s w w.active → Abreast r s w
  | within :
    (∃ a ∈ w.touched, a.index = BinArray.indexOf w.active) →
    r.nextArray w.active = some (BinArray.indexOf w.active) →
    Lists r s w (BinArray.exit (BinArray.indexOf w.active) r.direction) → Abreast r s w

theorem abreast_start (ht : s.touched = []) : Abreast r s s :=
  .before fun n => by simp [ht]

-- The array found is the last one touched, or it is touched now. The list goes on past it.
theorem Abreast.approach (h : Abreast r s w) (hn : r.nextArray w.active = some index)
    (hs : r.supplied? index = some array) :
    Lists r s (w.approach array) (BinArray.exit index r.direction) := by
  cases h
  case before hl => exact hl.approach hn hs
  case within ha hn' hl =>
    cases hn.symm.trans hn'
    obtain ⟨a, ha, hi⟩ := ha
    have hany : w.touched.any (·.index == array.index) = true :=
      List.any_eq_true.mpr ⟨a, ha, by simpa [BinArray.index_of_find? hs] using hi⟩
    have ht : (w.approach array).touched = w.touched := by
      rw [touched_approach, touch, if_pos hany]
    intro n
    rw [ht]
    exact hl n

theorem Abreast.round (hf : r.pool.WordsFit r.extension) (h : Abreast r s w)
    (hr : Round r w w') : Abreast r s w' := by
  cases hr
  case jump index array hn hs hi =>
    have hl := h.approach hn hs
    have ⟨a, ha, hia⟩ := exists_mem_touched_of_supplied w hs
    refine .within ⟨a, ha, ?_⟩ (Route.nextArray_entry hf hn) ?_
    · rwa [BinArray.indexOf_entry]
    · rwa [BinArray.indexOf_entry]
  case fill array bin f hn hs _ _ =>
    have hl := h.approach hn hs
    have ⟨a, ha, hia⟩ := exists_mem_touched_of_supplied w hs
    let v := (w.approach array).record bin f
    have hv : v.active = w.active := by rw [active_record, active_approach]
    have ht : (v.advance r.direction).touched = (w.approach array).touched := by simp [v]
    have hl' : Lists r s (v.advance r.direction)
        (BinArray.exit (BinArray.indexOf w.active) r.direction) := fun n => by
      rw [ht]
      exact hl n
    -- The next bin lies in the same array, where the search finds that array again, or past it.
    by_cases hi : BinArray.indexOf (v.advance r.direction).active = BinArray.indexOf w.active
    case pos =>
      refine .within ⟨a, ht ▸ ha, hia.trans hi.symm⟩ ?_ (hi.symm ▸ hl')
      rw [hi, Route.nextArray_eq]
      rw [Route.nextArray_eq] at hn
      exact hf.nextArray_of_holds hn (BinArray.holds_iff.mpr hi)
    case neg =>
      have hleft : 0 < v.left := by
        by_contra hz
        rw [advance_of_left hz, hv] at hi
        exact hi rfl
      have ha' : (v.advance r.direction).active = r.direction.after w.active := by
        rw [active_advance hleft, hv]
      rw [ha'] at hi
      refine .before ?_
      rw [ha', BinArray.after_eq_exit hi]
      exact hl'

theorem abreast_of_reached (hf : r.pool.WordsFit r.extension) (h : Reached r s w)
    (ht : s.touched = []) : Abreast r s w := by
  induction h
  case refl         => exact abreast_start ht
  case tail _ hg hi => exact hi.round hf (round_of_step hg.right)

-- Whatever was touched so far is the beginning of the list.
theorem Abreast.touched_eq (h : Abreast r s w) :
    w.touched.reverse.map (·.index) =
      Locator.upcoming r.direction r.tiers w.touched.length s.active := by
  cases h
  case before hl     => simpa using (hl 0).symm
  case within _ _ hl => simpa using (hl 0).symm

-- An array that is missing has not been touched, so it is the next one of the list.
theorem Abreast.upcoming_eq (h : Abreast r s w) (ht : Traced r s w)
    (hn : r.nextArray w.active = some index) (hs : r.supplied? index = none) :
    Locator.upcoming r.direction r.tiers (w.touched.length + 1) s.active =
      w.touched.reverse.map (·.index) ++ [index] := by
  cases h
  case before hl => rw [hl 1, Locator.upcoming_of_some hn, Locator.upcoming_zero]
  case within ha hn' _ =>
    cases hn.symm.trans hn'
    obtain ⟨a, ha, hi⟩ := ha
    cases hs.symm.trans (hi ▸ ht.supplied a ha)

end Walk

namespace Pool

theorem arrayIndexes_eq (hf : p.WordsFit e) (h : p.quote e arrays amount d slippage now = .ok q) :
    q.arrayIndexes = p.arraysForSwap e d q.arrayIndexes.length := by
  have ⟨_, _, _, w, hrun, hqw⟩ := exists_walk_of_quote h
  have ⟨_, _, _, _, _, _, he⟩ := Walk.exists_of_quote hqw
  have hw := (Walk.reached_of_run hrun).left
  have hl := (Walk.abreast_of_reached (r := .of p e arrays d) hf hw rfl).touched_eq
  have hi : q.arrayIndexes = w.touched.reverse.map (·.index) := by rw [he]; rfl
  have hn : (q.arrayIndexes.length : Int).toNat = w.touched.length := by simp [hi]
  rw [arraysForSwap, hn, hi]
  exact hl

-- Before the array that a quote lacks, the list has arrays at hand only.
theorem exists_upcoming_eq (hf : p.WordsFit e)
    (h : p.quote e arrays amount d slippage now = .error (.arrayNotSupplied index left active)) :
    ∃ before : List Int,
      Locator.upcoming d (p.tiers e) (before.length + 1) p.activeId = before ++ [index] ∧
      (∀ i ∈ before, ∃ a ∈ arrays, a.index = i) ∧ ∀ a ∈ arrays, a.index ≠ index := by
  have ⟨_, _, _, hrun⟩ := run_of_shortfall h rfl
  have ⟨w, hw, _, hfails⟩ := Walk.exists_fails_of_run hrun
  have ht := Walk.traced_of_reached hw rfl rfl
  cases hfails
  case notSupplied hn hs =>
    have hl := (Walk.abreast_of_reached (r := .of p e arrays d) hf hw rfl).upcoming_eq ht hn hs
    refine ⟨w.touched.reverse.map (·.index), ?_, ?_, BinArray.find?_eq_none_iff.mp hs⟩
    · rw [List.length_map, List.length_reverse]
      exact hl
    · intro i hi
      obtain ⟨a, ha, rfl⟩ := List.mem_map.mp hi
      exact ⟨a, BinArray.mem_of_find? (ht.supplied a (List.mem_reverse.mp ha)), rfl⟩

-- With the first arrays of the list at hand and no others, the next one is the first to be missing.
theorem upcoming_getElem?_eq (hf : p.WordsFit e)
    (hk : ∀ i, (∃ a ∈ arrays, a.index = i) ↔ i ∈ Locator.upcoming d (p.tiers e) k p.activeId)
    (h : p.quote e arrays amount d slippage now = .error (.arrayNotSupplied index left active)) :
    (Locator.upcoming d (p.tiers e) (k + 1) p.activeId)[k]? = some index := by
  have ⟨before, hl, hsub, hnew⟩ := exists_upcoming_eq hf h
  have hle : before.length ≤ k := by
    have hnd := hl ▸ Locator.nodup_upcoming d (p.tiers e) (before.length + 1) p.activeId
    have hsub' : before ⊆ Locator.upcoming d (p.tiers e) k p.activeId := fun i hi =>
      (hk i).mp (hsub i hi)
    exact (List.subperm_of_subset hnd.of_append_left hsub').length_le.trans
      (Locator.length_upcoming_le ..)
  have hge : k ≤ before.length := by
    by_contra hlt
    have ht := Locator.take_upcoming d (p.tiers e) (before.length + 1) k p.activeId
    rw [Nat.min_eq_left (by omega), hl] at ht
    have hm : index ∈ Locator.upcoming d (p.tiers e) k p.activeId :=
      List.mem_of_mem_take (ht ▸ List.mem_append_right before List.mem_cons_self)
    have ⟨a, ha, hi⟩ := (hk index).mpr hm
    exact hnew a ha hi
  obtain rfl : k = before.length := by omega
  rw [hl, List.getElem?_concat_length]

-- Which arrays to fetch ahead of a swap.
-- 1. The arrays that a quote touches are those of the prefetch list that is as long
-- 2. With exactly the first arrays of the list at hand, the one that a quote lacks is the next
-- 3. Where the list has no more of them, no quote lacks an array
theorem arraysForSwap_agree (hf : p.WordsFit e) (arrays : List BinArray) (amount : Int)
    (d : Direction) (slippage now : Int) :
    (∀ q, p.quote e arrays amount d slippage now = .ok q →
      q.arrayIndexes = p.arraysForSwap e d q.arrayIndexes.length) ∧
    ∀ k : Nat, (∀ i, (∃ a ∈ arrays, a.index = i) ↔ i ∈ p.arraysForSwap e d k) →
      (∀ index left active,
        p.quote e arrays amount d slippage now = .error (.arrayNotSupplied index left active) →
        ∀ count : Int, k < count → (p.arraysForSwap e d count)[k]? = some index) ∧
      ((∀ count : Int, k < count → (p.arraysForSwap e d count).length = k) →
        ∀ index left active,
          p.quote e arrays amount d slippage now ≠ .error (.arrayNotSupplied index left active)) := by
  refine ⟨fun q => arrayIndexes_eq hf, fun k hk => ?_⟩
  have hnext : ∀ index left active,
      p.quote e arrays amount d slippage now = .error (.arrayNotSupplied index left active) →
      ∀ count : Int, k < count → (p.arraysForSwap e d count)[k]? = some index := by
    intro index left active h count hc
    rw [arraysForSwap, Locator.getElem?_upcoming (by omega)]
    exact upcoming_getElem?_eq hf hk h
  refine ⟨hnext, fun hlast index left active h => ?_⟩
  have hget := hnext index left active h (k + 1) (by omega)
  rw [List.getElem?_eq_none (hlast (k + 1) (by omega)).le] at hget
  contradiction

-- Past array -515 nothing is marked, so no list of the way down is longer than two.
theorem arraysForSwap_sparse {count : Int} (h : 2 ≤ count) :
    sparse.arraysForSwap (some sparseExtension) .xToY count = [1, -515] := by
  obtain ⟨n, rfl⟩ : ∃ n : Nat, count = (n + 2 : Nat) := ⟨(count - 2).toNat, by omega⟩
  have h₁ : Locator.next? .xToY (sparse.tiers (some sparseExtension)) 75 = some 1 := by
    decide +kernel
  have h₂ : Locator.next? .xToY (sparse.tiers (some sparseExtension)) 69 = some (-515) := by
    decide +kernel
  have h₃ : Locator.next? .xToY (sparse.tiers (some sparseExtension)) (-36051) = none := by
    decide +kernel
  rw [arraysForSwap, Int.toNat_natCast, show sparse.activeId = 75 from rfl,
    Locator.upcoming_of_some h₁, show BinArray.exit 1 .xToY = 69 from rfl,
    Locator.upcoming_of_some h₂, show BinArray.exit (-515) .xToY = -36051 from rfl,
    Locator.upcoming_of_none h₃]

-- The first array is at hand at first, and then both are.
theorem arraysForSwap_agree_sparse :
    sparse.WordsFit (some sparseExtension) ∧
    (∃ q, sparse.quote (some sparseExtension) sparseArrays 500 .xToY 50 1000 = .ok q ∧
      q.arrayIndexes = [1, -515] ∧
      q.arrayIndexes =
        sparse.arraysForSwap (some sparseExtension) .xToY q.arrayIndexes.length) ∧
    (∃ left active,
      sparse.quote (some sparseExtension) (sparseArrays.take 1) 500 .xToY 50 1000 =
        .error (.arrayNotSupplied (-515) left active) ∧
      (sparse.arraysForSwap (some sparseExtension) .xToY 2)[1]? = some (-515)) ∧
    ∀ index left active, sparse.quote (some sparseExtension) sparseArrays 2114 .xToY 50 1000 ≠
      .error (.arrayNotSupplied index left active) := by
  have hok : (sparse.quote (some sparseExtension) sparseArrays 500 .xToY 50 1000).map
      (·.arrayIndexes) = .ok [1, -515] := by decide +kernel
  have ⟨q, hq, hi⟩ := exists_of_map_eq_ok hok
  have hmissing : sparse.quote (some sparseExtension) (sparseArrays.take 1) 500 .xToY 50 1000 =
      .error (.arrayNotSupplied (-515) 399 69) := by decide +kernel
  have hone : ∀ i, (∃ a ∈ sparseArrays.take 1, a.index = i) ↔
      i ∈ sparse.arraysForSwap (some sparseExtension) .xToY (1 : Nat) := by
    have hl : sparse.arraysForSwap (some sparseExtension) .xToY (1 : Nat) = [1] := by
      decide +kernel
    rw [hl]
    simp [sparseArrays, eq_comm]
  have htwo : ∀ i, (∃ a ∈ sparseArrays, a.index = i) ↔
      i ∈ sparse.arraysForSwap (some sparseExtension) .xToY (2 : Nat) := by
    rw [arraysForSwap_sparse (by decide)]
    simp [sparseArrays, eq_comm]
  have ⟨htouched, _⟩ :=
    arraysForSwap_agree wordsFit_sparse sparseArrays 500 .xToY 50 1000
  have ⟨_, hnext⟩ :=
    arraysForSwap_agree wordsFit_sparse (sparseArrays.take 1) 500 .xToY 50 1000
  have ⟨_, hlast⟩ :=
    arraysForSwap_agree wordsFit_sparse sparseArrays 2114 .xToY 50 1000
  exact ⟨wordsFit_sparse, ⟨q, hq, hi, htouched q hq⟩,
    ⟨399, 69, hmissing, (hnext 1 hone).left _ _ _ hmissing 2 (by decide)⟩,
    (hlast 2 htwo).right fun count hc => by rw [arraysForSwap_sparse (by omega)]; rfl⟩

end Pool

end BinMarket
