import BinMarket.Proofs.Bitmap.Places
import BinMarket.Proofs.Direction

/-!
A range answers with the marked index nearest on the way, and with none only when there is none.
-/

namespace BinMarket.Tier

open Direction

variable {t : Tier} {d : Direction} {i j : Int} {n k : Nat}

-- Whether an index lies in the range and has its bit set.
def Marked (t : Tier) (index : Int) : Prop :=
  t.Covers index ∧ Bits.has t.bits (t.place index).toNat = true

-- No bit lies outside the range.
def Sized (t : Tier) : Prop := Bits.Fits (t.highest - t.lowest + 1).toNat t.bits

theorem place_nonneg (h : t.Covers i) : 0 ≤ t.place i := by
  have ⟨_, _⟩ := h
  unfold place
  split <;> omega

theorem place_indexAt (t : Tier) (p : Int) : t.place (t.indexAt p) = p := by
  unfold indexAt place
  split <;> omega

theorem covers_indexAt (hk : n < (t.highest - t.lowest + 1).toNat) : t.Covers (t.indexAt n) := by
  unfold indexAt
  split <;> constructor <;> omega

theorem reaches_iff_of_ascends (h : t.ascends d = true) :
    d.reaches i j ↔ t.place i ≤ t.place j := by
  cases d <;> cases ht : t.descending <;> grind [ascends, place, reaches]

theorem reaches_iff_of_not_ascends (h : t.ascends d = false) :
    d.reaches i j ↔ t.place j ≤ t.place i := by
  cases d <;> cases ht : t.descending <;> grind [ascends, place, reaches]

theorem marked_indexAt (hb : t.bits = n) (hn : n < 2 ^ (t.highest - t.lowest + 1).toNat) {p : Nat}
    (hp : n.testBit p = true) : t.Marked (t.indexAt p) := by
  refine ⟨covers_indexAt ?_, ?_⟩
  · have := Nat.ge_two_pow_of_testBit hp
    exact (Nat.pow_lt_pow_iff_right (by decide)).mp (Nat.lt_of_le_of_lt this hn)
  · rw [place_indexAt, hb, Int.toNat_natCast, Bits.has_natCast, hp]

theorem testBit_of_marked (hb : t.bits = n) (h : t.Marked j) :
    n.testBit (t.place j).toNat = true := by
  rw [←Bits.has_natCast, ←hb, h.right]

theorem next?_of_ascends (ha : t.ascends d = true) (hb : t.bits = n) (hc : t.Covers i)
    (hk : t.place i = k) :
    t.next? d i =
      if n >>> k = 0 then none else some (t.indexAt (k + Bits.lowestOf (n >>> k) : Nat)) := by
  have hs : ((n : Int) >>> k) = ((n >>> k : Nat) : Int) := rfl
  simp only [next?, if_pos hc, ha, hk, hb, hs, if_true, Int.toNat_natCast, Int.natAbs_natCast,
    Int.natCast_eq_zero, Int.natCast_add]

theorem next?_of_not_ascends (ha : t.ascends d = false) (hb : t.bits = n) (hc : t.Covers i)
    (hk : t.place i = k) :
    t.next? d i =
      if n % 2 ^ (k + 1) = 0 then none else some (t.indexAt (n % 2 ^ (k + 1)).log2) := by
  have hm : ((n : Int) % twoTo (k + 1)).toNat = n % 2 ^ (k + 1) := rfl
  simp only [next?, if_pos hc, ha, hk, hb, hm, Bool.false_eq_true, if_false, Int.toNat_natCast]

theorem nearest_of_ascends (ha : t.ascends d = true) (hs : t.Sized) (hc : t.Covers i) :
    d.Nearest t.Marked i (t.next? d i) := by
  have ⟨n, hb, hn⟩ := hs.exists_natCast
  have ⟨k, hk⟩ := Int.eq_ofNat_of_zero_le (place_nonneg hc)
  have hr {j} : d.reaches i j ↔ k ≤ t.place j := hk ▸ reaches_iff_of_ascends ha
  have habove {j} (hj : d.reaches i j) (hm : t.Marked j) :
      (n >>> k).testBit ((t.place j).toNat - k) = true := by
    have := hr.mp hj
    rw [Nat.testBit_shiftRight, Nat.add_sub_of_le (by omega), testBit_of_marked hb hm]
  rw [next?_of_ascends ha hb hc hk]
  split
  case isTrue hz =>
    intro j hj hm
    simpa [hz] using habove hj hm
  case isFalse hz =>
    have hl := Bits.testBit_lowestOf hz
    rw [Nat.testBit_shiftRight] at hl
    refine ⟨?_, marked_indexAt hb hn hl, fun j hj hm => ?_⟩
    · rw [hr, place_indexAt]
      omega
    · have := Bits.lowestOf_le (habove hj hm)
      have := hr.mp hj
      rw [reaches_iff_of_ascends ha, place_indexAt]
      omega

theorem nearest_of_not_ascends (ha : t.ascends d = false) (hs : t.Sized) (hc : t.Covers i) :
    d.Nearest t.Marked i (t.next? d i) := by
  have ⟨n, hb, hn⟩ := hs.exists_natCast
  have ⟨k, hk⟩ := Int.eq_ofNat_of_zero_le (place_nonneg hc)
  have hr {j} : d.reaches i j ↔ t.place j ≤ k := hk ▸ reaches_iff_of_not_ascends ha
  have hbelow {j} (hj : d.reaches i j) (hm : t.Marked j) :
      (n % 2 ^ (k + 1)).testBit (t.place j).toNat = true := by
    have := hr.mp hj
    rw [Nat.testBit_mod_two_pow, testBit_of_marked hb hm, decide_eq_true (by omega), Bool.and_self]
  rw [next?_of_not_ascends ha hb hc hk]
  split
  case isTrue hz =>
    intro j hj hm
    simpa [hz] using hbelow hj hm
  case isFalse hz =>
    have hl := Nat.testBit_log2 hz
    rw [Nat.testBit_mod_two_pow, Bool.and_eq_true, decide_eq_true_iff] at hl
    refine ⟨?_, marked_indexAt hb hn hl.right, fun j hj hm => ?_⟩
    · rw [hr, place_indexAt]
      omega
    · have := Bits.le_log2 (hbelow hj hm)
      have := place_nonneg hm.left
      rw [reaches_iff_of_not_ascends ha, place_indexAt]
      omega

theorem nearest_next? (hs : t.Sized) (hc : t.Covers i) : d.Nearest t.Marked i (t.next? d i) := by
  cases ha : t.ascends d
  case true  => exact nearest_of_ascends ha hs hc
  case false => exact nearest_of_not_ascends ha hs hc

end BinMarket.Tier
