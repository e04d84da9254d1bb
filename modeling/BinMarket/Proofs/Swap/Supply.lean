import BinMarket.Proofs.Swap.Faults
import BinMarket.Proofs.Swap.InStep
import BinMarket.Proofs.Swap.Monotone

/-!
What the arrays at hand change about a quote. A quote depends on the arrays that it touches and on
no others, and where it fails for want of liquidity more arrays never leave more of the input.
-/

namespace BinMarket

variable {p : Pool} {e : Option Extension} {arrays arrays' : List BinArray} {r : Route}
  {s v w : Walk} {fee : DynamicFee} {d : Direction} {amount slippage now left : Int} {q : SwapQuote}
  {f : Fault}

-- Arrays of new indexes, before or after the others, change none that is at hand.
theorem BinArray.find?_append_of_new {index : Int} {a : BinArray}
    (h : ∀ a ∈ arrays', ∀ b ∈ arrays, a.index ≠ b.index) (ha : find? arrays index = some a) :
    find? (arrays ++ arrays') index = some a ∧ find? (arrays' ++ arrays) index = some a := by
  have hnew : find? arrays' index = none := find?_eq_none_iff.mpr fun a' hm hi =>
    h a' hm a (mem_of_find? ha) (hi.trans (index_of_find? ha).symm)
  simp only [find?, List.reverse_append, List.find?_append] at *
  simp [ha, hnew]

namespace Walk

theorem shortfall?_of_fails_of_priced (h : Fails r w f)
    (ht : ∀ a ∈ r.arrays, ∀ b ∈ a.bins, b.Tradable r.direction) : f.shortfall? = some w.left := by
  cases h
  case exhausted   => rfl
  case notSupplied => rfl
  case unpriced array bin _ hs hb ho hp =>
    have := (BinArray.forall_bin ht hs hb).priced ho
    omega

theorem left_of_fails (h : Fails r w f) (hs : f.shortfall? = some left) : w.left = left := by
  cases h
  case exhausted   => exact Option.some.inj hs
  case notSupplied => exact Option.some.inj hs
  case unpriced    => contradiction

variable (hu : ∀ a ∈ r.arrays, ∀ b ∈ a.bins, b.Unsigned) (hc : fee.Charges)
include hu hc

theorem left_le_of_goes {w' : Walk} (hf : ∀ bin, w.fee.track bin = fee.track bin)
    (h : Goes r w w') : w'.left ≤ w.left := by
  cases round_of_step h.right
  case jump => simp
  case fill array bin f _ hs hb hfill =>
    have := (within_of_fill hu hc hf h.left hs hb hfill).amountIn_nonneg
    simp only [left_advance, left_record, left_approach]
    omega

theorem left_le_of_reached (hf : ∀ bin, w.fee.track bin = fee.track bin) (h : Reached r w v) :
    v.left ≤ w.left := by
  induction h using Relation.ReflTransGen.head_induction_on
  case refl         => exact le_rfl
  case head hg _ hi => exact (hi (track_of_goes hf hg)).trans (left_le_of_goes hu hc hf hg)

end Walk

namespace Pool

-- The walk of a quote with the same arrays where it touches them is the same walk.
theorem quote_of_agree (h : p.quote e arrays amount d slippage now = .ok q)
    (ha : ∀ i ∈ q.arrayIndexes, BinArray.find? arrays' i = BinArray.find? arrays i) :
    p.quote e arrays' amount d slippage now = .ok q := by
  have ⟨hin, hs₀, hs₁, w, hrun, hqw⟩ := exists_walk_of_quote h
  have ⟨_, _, _, _, _, _, he⟩ := Walk.exists_of_quote hqw
  have ⟨hw, hz⟩ := Walk.reached_of_run hrun
  have ha' : ∀ a ∈ w.touched,
      BinArray.find? arrays' a.index = BinArray.find? arrays a.index := by
    intro a hm
    refine ha a.index ?_
    rw [he]
    exact List.mem_map.mpr ⟨a, List.mem_reverse.mpr hm, rfl⟩
  have hw' := Walk.reached_withArrays hw ha'
  have hrun' : Walk.run (.of p e arrays' d) (.start p amount now) = .ok w :=
    (Walk.run_of_reached hw').trans (Walk.run_of_left (not_lt.mpr hz))
  rw [quote_eq_bind hin hs₀ hs₁, hrun']
  exact hqw

-- With more arrays a walk comes to where it failed with fewer, and goes on from there.
theorem quote_of_extends (h : p.quote e arrays amount d slippage now = .error f)
    (hs : f.shortfall? = some left)
    (ha : ∀ i a, BinArray.find? arrays i = some a → BinArray.find? arrays' i = some a)
    (hu : p.Unsigned arrays') (ht : ∀ a ∈ arrays', ∀ b ∈ a.bins, b.Tradable d) :
    (∃ q, p.quote e arrays' amount d slippage now = .ok q) ∨
    ∃ f' left', p.quote e arrays' amount d slippage now = .error f' ∧
      f'.shortfall? = some left' ∧ left' ≤ left := by
  have ⟨hin, hs₀, hs₁, hrun⟩ := run_of_shortfall h hs
  have ⟨v, hv, hl, hfails⟩ := Walk.exists_fails_of_run hrun
  have htr := Walk.traced_of_reached hv rfl rfl
  have hv' : Walk.Reached (.of p e arrays' d) (.start p amount now) v :=
    Walk.reached_withArrays hv fun a hm =>
      (ha _ a (htr.supplied a hm)).trans (htr.supplied a hm).symm
  cases hrun' : Walk.run (.of p e arrays' d) (.start p amount now)
  case ok w =>
    have hpos : 0 < amount := by
      by_contra hz
      rw [Walk.run_of_left (w := Walk.start p amount now) hz] at hrun
      contradiction
    have ⟨_, hq⟩ := exists_quote_of_run hu ht hpos hs₀ hs₁ hrun'
    exact .inl ⟨_, hq⟩
  case error f' =>
    have hrest := (Walk.run_of_reached hv').symm.trans hrun'
    have ⟨w, hw, _, hfails'⟩ := Walk.exists_fails_of_run hrest
    have hle := Walk.left_le_of_reached hu.bins (hu.charges amount now) htr.fee hw
    refine .inr ⟨f', w.left, ?_, Walk.shortfall?_of_fails_of_priced hfails' ht, ?_⟩
    · rw [quote_eq_bind hin hs₀ hs₁, hrun']
      rfl
    · exact Walk.left_of_fails hfails hs ▸ hle

-- What a quote makes of the arrays at hand.
-- 1. It is the same with any arrays among which those that it touches are the same
-- 2. Where it fails for want of liquidity, more arrays give a quote or leave no larger part of the
--    input
theorem quote_frame (p : Pool) (e : Option Extension) (arrays arrays' : List BinArray) (amount : Int)
    (d : Direction) (slippage now : Int) :
    (∀ q, p.quote e arrays amount d slippage now = .ok q →
      (∀ i ∈ q.arrayIndexes, BinArray.find? arrays' i = BinArray.find? arrays i) →
      p.quote e arrays' amount d slippage now = .ok q) ∧
    ∀ f left, p.quote e arrays amount d slippage now = .error f → f.shortfall? = some left →
      (∀ i a, BinArray.find? arrays i = some a → BinArray.find? arrays' i = some a) →
      p.Unsigned arrays' → (∀ a ∈ arrays', ∀ b ∈ a.bins, b.Tradable d) →
      (∃ q, p.quote e arrays' amount d slippage now = .ok q) ∨
      ∃ f' left', p.quote e arrays' amount d slippage now = .error f' ∧
        f'.shortfall? = some left' ∧ left' ≤ left :=
  ⟨fun _ => quote_of_agree, fun _ _ => quote_of_extends⟩

-- The order of two arrays does not matter, and with the second one less of the input is left.
theorem quote_frame_sparse :
    (∃ q, sparse.quote (some sparseExtension) sparseArrays 500 .xToY 50 1000 = .ok q ∧
      q.arrayIndexes = [1, -515] ∧
      sparse.quote (some sparseExtension) sparseArrays.reverse 500 .xToY 50 1000 = .ok q) ∧
    sparse.Unsigned sparseArrays ∧ (∀ a ∈ sparseArrays, ∀ b ∈ a.bins, b.Tradable .xToY) ∧
    sparse.quote (some sparseExtension) (sparseArrays.take 1) 3000 .xToY 50 1000 =
      .error (.arrayNotSupplied (-515) 2899 69) ∧
    ∃ f left, sparse.quote (some sparseExtension) sparseArrays 3000 .xToY 50 1000 = .error f ∧
      f.shortfall? = some left ∧ left ≤ 2899 := by
  have hok : (sparse.quote (some sparseExtension) sparseArrays 500 .xToY 50 1000).map
      (·.arrayIndexes) = .ok [1, -515] := by decide +kernel
  have ⟨q, hq, hi⟩ := exists_of_map_eq_ok hok
  have hmissing : sparse.quote (some sparseExtension) (sparseArrays.take 1) 3000 .xToY 50 1000 =
      .error (.arrayNotSupplied (-515) 2899 69) := by decide +kernel
  have hfails : (sparse.quote (some sparseExtension) sparseArrays 3000 .xToY 50 1000).isOk =
      false := by decide +kernel
  have ⟨hagree, _⟩ := quote_frame sparse (some sparseExtension) sparseArrays sparseArrays.reverse
    500 .xToY 50 1000
  have ⟨_, hextends⟩ := quote_frame sparse (some sparseExtension) (sparseArrays.take 1)
    sparseArrays 3000 .xToY 50 1000
  have hsame : ∀ i ∈ q.arrayIndexes,
      BinArray.find? sparseArrays.reverse i = BinArray.find? sparseArrays i := by
    rw [hi]
    decide +kernel
  have hnew : ∀ a ∈ sparseArrays.drop 1, ∀ b ∈ sparseArrays.take 1, a.index ≠ b.index := by
    decide +kernel
  have hmore : ∀ i a, BinArray.find? (sparseArrays.take 1) i = some a →
      BinArray.find? sparseArrays i = some a := fun _ _ h =>
    (BinArray.find?_append_of_new hnew h).left
  cases hextends _ 2899 hmissing rfl hmore unsigned_sparse tradable_sparse
  case inl h =>
    have ⟨_, hq⟩ := h
    rw [hq] at hfails
    contradiction
  case inr h =>
    exact ⟨⟨q, hq, hi, hagree q hq hsame⟩, unsigned_sparse, tradable_sparse, hmissing, h⟩

end Pool

end BinMarket
