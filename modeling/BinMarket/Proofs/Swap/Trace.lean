import BinMarket.Proofs.Swap.Rounds

/-!
What a walk remembers is what it did. Every bin that it lists was filled at its own fee from an
array at hand, no bin is listed twice, and the inputs listed and the input left add up to the start.
-/

namespace BinMarket

open Direction

variable {r : Route} {s w w' : Walk} {a array : BinArray} {b bin : Bin} {f : Fill} {g : FilledBin}
  {d : Direction} {index id : Int} {part : Fill → Int}

-- A fill that a bin makes at the fee of its own distance, with the bin from the array at hand.
structure FilledBin.Genuine (r : Route) (fee : DynamicFee) (g : FilledBin) : Prop where
  array    : ∃ a, r.supplied? (BinArray.indexOf g.id) = some a ∧ a.bin g.id = .ok g.bin
  input    : ∃ left, 0 < left ∧ g.bin.fill (fee.track g.id) left r.direction = .ok g.fill
  nonempty : g.fill.isEmpty = false

-- A bin without anything to sell is not among the filled ones.
theorem FilledBin.Genuine.output_ne_zero {fee : DynamicFee} (h : g.Genuine r fee) :
    g.bin.output r.direction ≠ 0 := by
  intro ho
  have ⟨_, _, hf⟩ := h.input
  have he := h.nonempty
  rw [Bin.fill_of_output_eq_zero ho] at hf
  rw [←Except.ok.inj hf] at he
  contradiction

theorem FilledBin.Genuine.protocolFee_eq {fee : DynamicFee} (h : g.Genuine r fee) :
    g.fill.protocolFee = fee.protocolCut g.fill.fee := by
  have ⟨_, _, hf⟩ := h.input
  rw [Bin.protocolFee_of_fill hf, DynamicFee.protocolCut_track]

namespace BinArray

-- Another array on the way is entered at a bin past the one that it is seen from.
theorem reaches_after_entry (hr : d.reaches (indexOf id) index) (hi : indexOf id ≠ index) :
    d.reaches (d.after id) (entry index d) := by
  cases d <;> simp only [reaches, after, entry, indexOf, highest, lowest] at * <;> omega

end BinArray

namespace Walk

@[simp] theorem fee_record (w : Walk) (b : Bin) (f : Fill) : (w.record b f).fee = w.fee := by
  unfold record; split <;> rfl

@[simp] theorem touched_record (w : Walk) (b : Bin) (f : Fill) :
    (w.record b f).touched = w.touched := by
  unfold record; split <;> rfl

@[simp] theorem left_record (w : Walk) (b : Bin) (f : Fill) :
    (w.record b f).left = w.left - f.amountIn := by
  unfold record
  split
  case isTrue h =>
    have : f.amountIn = 0 := by simpa [Fill.isEmpty] using h
    omega
  case isFalse => rfl

theorem mem_filled_record :
    g ∈ (w.record b f).filled ↔ (f.isEmpty = false ∧ g = ⟨w.active, b, f⟩) ∨ g ∈ w.filled := by
  unfold record
  split <;> simp_all

-- What holds for the bins listed and for a new fill holds for the bins listed after it.
theorem forall_mem_filled_record {P : FilledBin → Prop} (hf : f.isEmpty = false → P ⟨w.active, b, f⟩)
    (h : ∀ g ∈ w.filled, P g) : ∀ g ∈ (w.record b f).filled, P g := by
  intro g hg
  cases mem_filled_record.mp hg
  case inl hg => exact hg.right ▸ hf hg.left
  case inr hg => exact h g hg

theorem total_record (he : f.isEmpty = false) (w : Walk) (b : Bin) (part : Fill → Int) :
    (w.record b f).total part = part f + w.total part := by
  simp [record, he, total]

theorem total_le_record (h : 0 ≤ part f) (w : Walk) (b : Bin) :
    w.total part ≤ (w.record b f).total part := by
  unfold record
  split
  case isTrue  => exact le_rfl
  case isFalse => simpa [total] using h

@[simp] theorem total_record_amountIn (w : Walk) (b : Bin) (f : Fill) :
    (w.record b f).total (·.amountIn) = f.amountIn + w.total (·.amountIn) := by
  unfold record
  split
  case isTrue h =>
    have : f.amountIn = 0 := by simpa [Fill.isEmpty] using h
    omega
  case isFalse => rfl

@[simp] theorem fee_advance (w : Walk) (d : Direction) : (w.advance d).fee = w.fee := by
  unfold advance; split <;> rfl

@[simp] theorem touched_advance (w : Walk) (d : Direction) :
    (w.advance d).touched = w.touched := by
  unfold advance; split <;> rfl

@[simp] theorem left_advance (w : Walk) (d : Direction) : (w.advance d).left = w.left := by
  unfold advance; split <;> rfl

@[simp] theorem filled_advance (w : Walk) (d : Direction) : (w.advance d).filled = w.filled := by
  unfold advance; split <;> rfl

@[simp] theorem total_approach (w : Walk) (a : BinArray) (part : Fill → Int) :
    (w.approach a).total part = w.total part := by
  simp [total]

@[simp] theorem total_advance (w : Walk) (d : Direction) (part : Fill → Int) :
    (w.advance d).total part = w.total part := by
  simp [total]

theorem active_advance (h : 0 < w.left) : (w.advance d).active = d.after w.active := by
  rw [advance, if_pos h]

theorem advance_of_left (h : ¬0 < w.left) : w.advance d = w := by
  rw [advance, if_neg h]

theorem reaches_active_advance (w : Walk) (d : Direction) :
    d.reaches w.active (w.advance d).active := by
  unfold advance
  split
  case isTrue  => exact reaches_after ..
  case isFalse => exact reaches_refl ..

theorem suffix_touched_touch (w : Walk) (a : BinArray) : w.touched <:+ (w.touch a).touched := by
  unfold touch
  split
  case isTrue  => exact List.suffix_rfl
  case isFalse => exact List.suffix_cons ..

theorem mem_touched_touch (h : a ∈ (w.touch array).touched) : a = array ∨ a ∈ w.touched := by
  unfold touch at h
  split at h
  case isTrue  => exact .inr h
  case isFalse => exact List.mem_cons.mp h

theorem mem_touched_of_mem (h : a ∈ w.touched) : a ∈ (w.touch array).touched :=
  (suffix_touched_touch w array).subset h

theorem exists_mem_touched (w : Walk) (array : BinArray) :
    ∃ a ∈ (w.touch array).touched, a.index = array.index := by
  unfold touch
  split
  case isTrue h  => simpa using h
  case isFalse h => exact ⟨array, List.mem_cons_self, rfl⟩

theorem exists_mem_touched_of_supplied (w : Walk) (hs : r.supplied? index = some array) :
    ∃ a ∈ (w.touch array).touched, a.index = index :=
  BinArray.index_of_find? hs ▸ exists_mem_touched w array

-- What holds between the start `s` of a walk and any later state `w`.
structure Traced (r : Route) (s w : Walk) : Prop where
  fee       : ∀ bin, w.fee.track bin = s.fee.track bin
  ahead     : r.direction.reaches s.active w.active
  supplied  : ∀ a ∈ w.touched, r.supplied? a.index = some a
  conserved : w.total (·.amountIn) + w.left = s.left
  genuine   : ∀ g ∈ w.filled, g.Genuine r s.fee
  noted     : ∀ g ∈ w.filled, ∃ a ∈ w.touched, a.index = BinArray.indexOf g.id
  onward    : ∀ g ∈ w.filled, r.direction.reaches s.active g.id
  behind    : ∀ g ∈ w.filled, r.direction.reaches g.id w.active
  passed    : 0 < w.left → ∀ g ∈ w.filled, r.direction.reaches (r.direction.after g.id) w.active
  ordered   : w.filled.Pairwise fun g f => r.direction.reaches (r.direction.after f.id) g.id

namespace Traced

theorem start (hf : s.filled = []) (ht : s.touched = []) : Traced r s s := by
  constructor <;> simp [hf, ht, total, reaches_refl]

theorem approach (h : Traced r s w) (hs : r.supplied? index = some array) :
    Traced r s (w.approach array) where
  fee       := h.fee
  ahead     := by simpa using h.ahead
  supplied  := by
    intro a ha
    cases mem_touched_touch ha
    case inl he => rwa [he, BinArray.index_of_find? hs]
    case inr hm => exact h.supplied a hm
  conserved := by simpa [total] using h.conserved
  genuine   := by simpa using h.genuine
  noted     := by
    intro g hg
    have ⟨a, ha, hi⟩ := h.noted g (by simpa using hg)
    exact ⟨a, mem_touched_of_mem ha, hi⟩
  onward    := by simpa using h.onward
  behind    := by simpa using h.behind
  passed    := by simpa using h.passed
  ordered   := by simpa using h.ordered

theorem jump (h : Traced r s w) (hl : 0 < w.left)
    (hr : r.direction.reaches w.active id) : Traced r s { w with active := id } where
  fee       := h.fee
  ahead     := reaches_trans h.ahead hr
  supplied  := h.supplied
  conserved := h.conserved
  genuine   := h.genuine
  noted     := h.noted
  onward    := h.onward
  behind    := fun g hg => reaches_trans (h.behind g hg) hr
  passed    := fun _ g hg => reaches_trans (h.passed hl g hg) hr
  ordered   := h.ordered

-- The fill of the active bin is listed before the others, all of which lie behind it.
theorem fill (h : Traced r s w) (hl : 0 < w.left)
    (hs : r.supplied? (BinArray.indexOf w.active) = some a) (hb : a.bin w.active = .ok bin)
    (hn : ∃ a ∈ w.touched, a.index = BinArray.indexOf w.active)
    (hf : bin.fill (w.fee.track w.active) w.left r.direction = .ok f) :
    Traced r s ((w.record bin f).advance r.direction) := by
  have hg : f.isEmpty = false → FilledBin.Genuine r s.fee ⟨w.active, bin, f⟩ := fun he =>
    ⟨⟨a, hs, hb⟩, ⟨w.left, hl, h.fee w.active ▸ hf⟩, he⟩
  have ha : r.direction.reaches w.active ((w.record bin f).advance r.direction).active := by
    simpa [active_record] using reaches_active_advance (w.record bin f) r.direction
  constructor
  case fee       => simpa using h.fee
  case ahead     => exact reaches_trans h.ahead ha
  case supplied  => simpa using h.supplied
  case conserved =>
    have hc := h.conserved
    rw [total_advance, total_record_amountIn, left_advance, left_record]
    omega
  case genuine   =>
    rw [filled_advance]
    exact forall_mem_filled_record hg h.genuine
  case noted     =>
    rw [filled_advance, touched_advance, touched_record]
    exact forall_mem_filled_record (fun _ => hn) h.noted
  case onward    =>
    rw [filled_advance]
    exact forall_mem_filled_record (fun _ => h.ahead) h.onward
  case behind    =>
    rw [filled_advance]
    exact forall_mem_filled_record (fun _ => ha) fun g hm => reaches_trans (h.behind g hm) ha
  case passed    =>
    intro hl'
    rw [left_advance] at hl'
    rw [filled_advance, active_advance hl', active_record]
    exact forall_mem_filled_record (fun _ => reaches_refl ..) fun g hm =>
      reaches_trans (h.passed hl g hm) (reaches_after ..)
  case ordered   =>
    rw [filled_advance, record]
    split
    case isTrue  => exact h.ordered
    case isFalse => exact List.pairwise_cons.mpr ⟨h.passed hl, h.ordered⟩

theorem round (h : Traced r s w) (hl : 0 < w.left) (hr : Round r w w') : Traced r s w' := by
  cases hr
  case fill array bin f hn hs hb hf =>
    have ⟨a, ha, hi⟩ := exists_mem_touched_of_supplied w hs
    exact (h.approach hs).fill (by simpa) (by simpa using hs) (by simpa using hb)
      ⟨a, ha, by simpa using hi⟩ (by simpa using hf)
  case jump index array hn hs hi =>
    have hr := BinArray.reaches_after_entry (Locator.reaches_of_next? hn) hi
    exact (h.approach hs).jump (by simpa) (reaches_trans (reaches_after ..) (by simpa using hr))

-- Bins that are met in order are different bins.
theorem nodup_ids (h : Traced r s w) : (w.filled.map (·.id)).Nodup := by
  refine List.pairwise_map.mpr (h.ordered.imp fun {g f} hr he => ?_)
  exact reaches_after_iff.mp hr (he ▸ reaches_refl ..)

end Traced

theorem traced_of_reached (h : Reached r s w) (hf : s.filled = []) (ht : s.touched = []) :
    Traced r s w := by
  induction h
  case refl         => exact .start hf ht
  case tail _ hg hi => exact hi.round hg.left (round_of_step hg.right)

end Walk

end BinMarket
