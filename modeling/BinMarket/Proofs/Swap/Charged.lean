import BinMarket.Proofs.Fee.Overview
import BinMarket.Proofs.Swap.Impact

/-!
What is read out as the current fee is what a swap is charged. The read-out and the walk each move
the references on and take up the distance of a bin, and at the active bin they arrive at one fee
state.
-/

namespace BinMarket

open Direction

variable {p : Pool} {e : Option Extension} {arrays : List BinArray} {r : Route} {s w w' : Walk}
  {d : Direction} {amount slippage now : Int} {q : SwapQuote} {g first : FilledBin}

theorem FilledBin.Genuine.fee_eq {fee : DynamicFee} (h : g.Genuine r fee) (hc : fee.Charges) :
    g.fill.fee = (fee.track g.id).inside g.fill.amountIn := by
  have ⟨_, _, hf⟩ := h.input
  exact Bin.fee_of_fill (hc.track g.id).rate_nonneg hf

namespace Walk

-- The first bin that is filled is offered the whole input.
def OffersAll (r : Route) (s w : Walk) : Prop :=
  ∀ first, w.filled.getLast? = some first →
    first.bin.fill (s.fee.track first.id) s.left r.direction = .ok first.fill

theorem getLast?_filled_record {b : Bin} {f : Fill}
    (h : (w.record b f).filled.getLast? = some first) :
    (w.filled = [] ∧ first = ⟨w.active, b, f⟩) ∨ w.filled.getLast? = some first := by
  unfold record at h
  split at h
  case isTrue  => exact .inr h
  case isFalse =>
    cases hw : w.filled
    case nil => simpa [hw, eq_comm] using h
    case cons g filled =>
      rw [hw, List.getLast?_cons_cons] at h
      exact .inr h

theorem OffersAll.round (h : OffersAll r s w) (ht : Traced r s w) (hr : Round r w w') :
    OffersAll r s w' := by
  cases hr
  case jump => simpa [OffersAll] using h
  case fill array bin f hn hs hb hf =>
    intro first hfirst
    rw [filled_advance] at hfirst
    cases getLast?_filled_record hfirst
    case inr hlast => exact h first (by simpa using hlast)
    case inl hnone =>
      -- nothing has been taken from the input so far
      have hleft : w.left = s.left := by
        have hw : w.filled = [] := by simpa using hnone.left
        simpa [total, hw] using ht.conserved
      rw [hnone.right, ←hleft, ←ht.fee]
      simpa using hf

theorem offersAll_of_reached (h : Reached r s w) (hf : s.filled = []) (ht : s.touched = []) :
    OffersAll r s w := by
  induction h
  case refl => simp [OffersAll, hf]
  case tail hr hg hi => exact hi.round (traced_of_reached hr hf ht) (round_of_step hg.right)

-- A walk that ends where it started has filled one bin, the one it started from.
theorem Traced.filled_eq (h : Traced r s w) (hs : w.active = s.active)
    (hf : w.filled.getLast? = some first) : w.filled = [first] ∧ first.id = s.active := by
  have hid : ∀ g ∈ w.filled, g.id = s.active := fun g hg =>
    reaches_antisymm (hs ▸ h.behind g hg) (h.onward g hg)
  have hfirst := hid first (List.mem_of_getLast? hf)
  refine ⟨?_, hfirst⟩
  cases hw : w.filled
  case nil => simp [hw] at hf
  case cons g filled =>
    cases filled
    case nil => simpa [hw] using hf
    case cons g' filled =>
      have hnodup := h.nodup_ids
      have hg := hid g (by simp [hw])
      have hg' := hid g' (by simp [hw])
      simp [hw, hg, hg'] at hnodup

end Walk

namespace Pool

-- The fee that is read out is the fee that is charged.
-- 1. The read-out is exact: it is the rate of the fee state at the active bin, in percent
-- 2. A quote that ends at the active bin is charged it on the whole input
-- 3. If the active bin is the first one filled, it is filled at the fee state that is read out and
--    charged the read-out on what it takes in
theorem quote_charges_currentFee (hu : p.Unsigned arrays)
    (hq : p.quote e arrays amount d slippage now = .ok q) :
    ∃ percent, p.currentFee now = .ok percent ∧ percent.IsFinite ∧
      percent.value = (p.feeAt now).rate / 10 ^ 7 ∧
      (q.endBin = some p.activeId →
        q.fee = ⌈amount * percent.value / 100⌉ ∧
        q.protocolFee = q.fee * p.fees.protocolShare / DynamicFee.basisPoints) ∧
      ∃ w first, Walk.run (.of p e arrays d) (.start p amount now) = .ok w ∧
        w.filled.getLast? = some first ∧
        (first.id = p.activeId →
          first.bin.fill (p.feeAt now) amount d = .ok first.fill ∧
          first.fill.fee = ⌈first.fill.amountIn * percent.value / 100⌉ ∧
          first.fill.protocolFee =
            first.fill.fee * p.fees.protocolShare / DynamicFee.basisPoints) := by
  have ⟨percent, hpercent, hfinite, hvalue⟩ := currentFee_eq hu.base now
  have ⟨w, first, impact, hrun, ht, hf, hnet, he⟩ := exists_traced_of_quote hu hq
  have hoffers := Walk.offersAll_of_reached (Walk.reached_of_run hrun).left rfl rfl first hf
  have hgen := ht.genuine first (List.mem_of_getLast? hf)
  have hcharged (hid : first.id = p.activeId) :
      first.fill.fee = ⌈first.fill.amountIn * percent.value / 100⌉ := by
    rw [hgen.fee_eq (hu.charges amount now), hid, hvalue]
    exact DynamicFee.inside_eq_ceil (p.feeAt now) _
  have hcut := hgen.protocolFee_eq
  rw [Walk.protocolCut_start] at hcut
  refine ⟨percent, hpercent, hfinite, hvalue, ?_, w, first, hrun, hf, ?_⟩
  case refine_1 =>
    intro hend
    have hactive : w.active = p.activeId := by
      rw [he] at hend
      exact Option.some.inj hend
    have ⟨hfilled, hid⟩ := ht.filled_eq hactive hf
    have htotal (part : Fill → Int) : w.total part = part first.fill := by
      simp [Walk.total, hfilled]
    have hfee : q.fee = first.fill.fee := by
      rw [he]
      exact htotal _
    have hin : first.fill.amountIn = amount := by
      rw [Walk.netIn, htotal, htotal] at hnet
      omega
    have hprotocol : q.protocolFee = first.fill.protocolFee := by
      rw [he]
      exact htotal _
    rw [hprotocol, hfee, hcut, ←hin]
    exact ⟨hcharged hid, rfl⟩
  case refine_2 =>
    intro hid
    refine ⟨?_, hcharged hid, hcut⟩
    rw [hid] at hoffers
    exact hoffers

-- A pool that has moved by one bin, ten seconds before the time of the swap.
def moved : Pool := { restless with volatility := { indexReference := 74, updatedAt := 990 } }

theorem quote_charges_currentFee_moved :
    moved.Unsigned level ∧
    ∃ q percent, moved.quote none level 900 .xToY 50 1000 = .ok q ∧
      q.endBin = some moved.activeId ∧ q.fee = 37 ∧ moved.currentFee 1000 = .ok percent ∧
      percent.value = 41 / 10 ∧ q.fee = ⌈900 * percent.value / 100⌉ := by
  have hu : moved.Unsigned level := by decide +kernel
  have hok : (moved.quote none level 900 .xToY 50 1000).map (fun q => (q.endBin, q.fee)) =
      .ok (some moved.activeId, 37) := by decide +kernel
  have hrate : (moved.feeAt 1000).rate = 41000000 := by decide +kernel
  have ⟨q, hq, hout⟩ := exists_of_map_eq_ok hok
  have ⟨hend, hfee⟩ := Prod.mk.inj hout
  have ⟨percent, hpercent, _, hvalue, hcharged, _⟩ := quote_charges_currentFee hu hq
  refine ⟨hu, q, percent, hq, hend, hfee, hpercent, ?_, (hcharged hend).left⟩
  rw [hvalue, hrate]
  norm_num

end Pool

end BinMarket
