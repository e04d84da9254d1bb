import BinMarket.BinArray.Basic

/-!
Bins looked up in the arrays at hand.
-/

namespace BinMarket.BinArray

variable {arrays : List BinArray} {a : BinArray} {b : Bin} {index id : Int}

theorem mem_of_find? (h : find? arrays index = some a) : a ∈ arrays :=
  List.mem_reverse.mp (List.mem_of_find?_eq_some h)

theorem find?_eq_none_iff : find? arrays index = none ↔ ∀ a ∈ arrays, a.index ≠ index := by
  simp [find?]

theorem mem_bins_of_bin (h : a.bin id = .ok b) : b ∈ a.bins := by
  unfold bin at h
  split at h
  case isTrue hh =>
    cases h
    have ⟨_, _⟩ := hh
    have : (id - lowest a.index).toNat < 70 := by
      simp only [lowest, highest] at *
      omega
    rw [getElem!_pos a.bins _ this]
    exact Vector.getElem_mem this
  case isFalse => contradiction

theorem index_of_bin (h : a.bin id = .ok b) : a.index = indexOf id := by
  unfold bin at h
  split at h
  case isTrue hh => exact (holds_iff.mp hh).symm
  case isFalse   => contradiction

-- What holds for every bin at hand holds for the one that a walk comes to.
theorem forall_bin {P : Bin → Prop} (h : ∀ a ∈ arrays, ∀ b ∈ a.bins, P b)
    (ha : find? arrays index = some a) (hb : a.bin id = .ok b) : P b :=
  h a (mem_of_find? ha) b (mem_bins_of_bin hb)

-- A bin among the arrays at hand.
def HasBin (arrays : List BinArray) (id : Int) (b : Bin) : Prop :=
  ∃ a, find? arrays (indexOf id) = some a ∧ a.bin id = .ok b

theorem HasBin.unique {b' : Bin} (h : HasBin arrays id b) (h' : HasBin arrays id b') : b = b' := by
  have ⟨a, ha, hb⟩ := h
  have ⟨a', ha', hb'⟩ := h'
  obtain rfl := Option.some.inj (ha.symm.trans ha')
  exact Except.ok.inj (hb.symm.trans hb')

-- The reserve that a swap finds in a bin, nothing when the bin's array is not at hand.
def reserveOf (arrays : List BinArray) (d : Direction) (id : Int) : Int :=
  match find? arrays (indexOf id) with
  | none   => 0
  | some a =>
    match a.bin id with
    | .error _ => 0
    | .ok b    => b.output d

theorem reserveOf_eq (ha : find? arrays (indexOf id) = some a) (hb : a.bin id = .ok b) :
    reserveOf arrays d id = b.output d := by
  rw [reserveOf, ha]
  simp only [hb]

theorem reserveOf_nonneg {d : Direction} (h : ∀ a ∈ arrays, ∀ b ∈ a.bins, 0 ≤ b.output d)
    (id : Int) : 0 ≤ reserveOf arrays d id := by
  unfold reserveOf
  split
  case h_1 => exact Int.le_refl _
  case h_2 a ha =>
    split
    case h_1 => exact Int.le_refl _
    case h_2 b hb => exact forall_bin h ha hb

end BinMarket.BinArray
