import BinMarket.Bitmap.Liquidity
import Mathlib.Algebra.Group.Nat.Defs

/-!
Places of bits. The lowest and the highest bit of a number, and where the bits of a word stand once
words are packed.
-/

namespace BinMarket.Bits

variable {n m i k width place : Nat} {word : Int} {words : List Int}

theorem has_natCast (n place : Nat) : has n place = n.testBit place := by
  have h : ((n : Int) >>> place) = ((n >>> place : Nat) : Int) := rfl
  rw [has, h, Nat.testBit_eq_decide_div_mod_eq, ←Nat.shiftRight_eq_div_pow, Bool.beq_eq_decide_eq]
  simp only [decide_eq_decide]
  omega

theorem lowestOf_odd (m : Nat) : lowestOf (2 * m + 1) = 0 := by
  have h : (2 * m + 1) ^^^ (2 * m) = 1 := by
    have hd : ((2 * m + 1) ^^^ (2 * m)) / 2 = 0 := by
      rw [Nat.xor_div_two, show (2 * m + 1) / 2 = m by omega, show 2 * m / 2 = m by omega,
        Nat.xor_self]
    have hm : ((2 * m + 1) ^^^ (2 * m)) % 2 = 1 := by
      rw [Nat.xor_mod_two_eq_one]
      omega
    omega
  rw [lowestOf, Nat.add_sub_cancel, h]
  rfl

theorem lowestOf_even (h : m ≠ 0) : lowestOf (2 * m) = lowestOf m + 1 := by
  have hd : ((2 * m) ^^^ (2 * m - 1)) / 2 = m ^^^ (m - 1) := by
    rw [Nat.xor_div_two, show 2 * m / 2 = m by omega, show (2 * m - 1) / 2 = m - 1 by omega]
  have hne : m ^^^ (m - 1) ≠ 0 := by
    intro hz
    have hx : m ^^^ (m ^^^ (m - 1)) = m - 1 := by rw [←Nat.xor_assoc, Nat.xor_self, Nat.zero_xor]
    rw [hz, Nat.xor_zero] at hx
    omega
  rw [lowestOf, Nat.log2_def, if_pos (by omega), hd, lowestOf]

-- The number halves as long as it is even, and each halving lowers every bit by one place.
theorem lowestOf_spec (h : n ≠ 0) :
    n.testBit (lowestOf n) = true ∧ ∀ i < lowestOf n, n.testBit i = false := by
  induction n using Nat.strongRecOn
  case ind n hi =>
    obtain ⟨m, rfl | rfl⟩ : ∃ m, n = 2 * m ∨ n = 2 * m + 1 := ⟨n / 2, by omega⟩
    case inr =>
      simp [lowestOf_odd]
    case inl =>
      have hm : m ≠ 0 := by omega
      have hh : 2 * m / 2 = m := by omega
      have ⟨hl, hb⟩ := hi m (by omega) hm
      rw [lowestOf_even hm]
      refine ⟨by rw [Nat.testBit_succ, hh, hl], fun i hlt => ?_⟩
      cases i
      case zero   => simp
      case succ i => rw [Nat.testBit_succ, hh, hb i (by omega)]

theorem testBit_lowestOf (h : n ≠ 0) : n.testBit (lowestOf n) = true :=
  (lowestOf_spec h).left

theorem lowestOf_le (h : n.testBit i = true) : lowestOf n ≤ i := by
  have hn : n ≠ 0 := by rintro rfl; simp at h
  cases Nat.lt_or_ge i (lowestOf n)
  case inl hlt => simp [(lowestOf_spec hn).right i hlt] at h
  case inr hge => exact hge

theorem le_log2 (h : n.testBit i = true) : i ≤ n.log2 := by
  have hn : n ≠ 0 := by rintro rfl; simp at h
  exact (Nat.le_log2 hn).mpr (Nat.ge_two_pow_of_testBit h)

-- A number that takes up no more than `width` bits.
def Fits (width : Nat) (word : Int) : Prop := 0 ≤ word ∧ word < twoTo width

instance (width : Nat) (word : Int) : Decidable (Fits width word) :=
  inferInstanceAs (Decidable (_ ∧ _))

theorem fits_natCast : Fits width n ↔ n < 2 ^ width := by
  simp only [Fits, twoTo]
  exact ⟨fun h => Int.ofNat_lt.mp h.right, fun h => ⟨Int.natCast_nonneg n, Int.ofNat_lt.mpr h⟩⟩

theorem Fits.exists_natCast (h : Fits width word) : ∃ n : Nat, word = n ∧ n < 2 ^ width := by
  have ⟨n, hn⟩ := Int.eq_ofNat_of_zero_le h.left
  exact ⟨n, hn, fits_natCast.mp (hn ▸ h)⟩

theorem pack_cons : pack width (word :: words) = union word (pack width words * twoTo width) := rfl

theorem union_natCast (n m : Nat) : union n m = (n ||| m : Nat) := rfl

theorem pack_cons_natCast (hn : word = n) (hm : pack width words = m) :
    pack width (word :: words) = (n ||| m * 2 ^ width : Nat) := by
  rw [pack_cons, hn, hm, ←union_natCast]
  rfl

theorem fits_pack (h : ∀ word ∈ words, Fits width word) :
    Fits (width * words.length) (pack width words) := by
  induction words
  case nil => simp [pack, Fits, twoTo]
  case cons word words hi =>
    have ⟨n, hn, hnw⟩ := (h word List.mem_cons_self).exists_natCast
    have ⟨m, hm, hmw⟩ := (hi fun w hw => h w (List.mem_cons_of_mem _ hw)).exists_natCast
    rw [pack_cons_natCast hn hm, fits_natCast]
    apply Nat.or_lt_two_pow
    · exact Nat.lt_of_lt_of_le hnw (Nat.pow_le_pow_right (by decide) (by simp [Nat.mul_succ]))
    · rw [List.length_cons, Nat.mul_succ, Nat.pow_add]
      exact Nat.mul_lt_mul_of_pos_right hmw (Nat.two_pow_pos width)

theorem has_pack (hw : 0 < width) (h : ∀ word ∈ words, Fits width word) (place : Nat) :
    has (pack width words) place = (words[place / width]?).any (has · (place % width)) := by
  induction words generalizing place
  case nil => simp [pack, has]
  case cons word words hi =>
    have ⟨n, hn, hnw⟩ := (h word List.mem_cons_self).exists_natCast
    have hs := fun w hw => h w (List.mem_cons_of_mem word hw)
    have ⟨m, hm, _⟩ := (fits_pack hs).exists_natCast
    rw [pack_cons_natCast hn hm, has_natCast, Nat.testBit_or, Nat.testBit_mul_two_pow]
    by_cases hp : place < width
    case pos =>
      simp [Nat.div_eq_of_lt hp, Nat.mod_eq_of_lt hp, hn, has_natCast, Nat.not_le.mpr hp]
    case neg =>
      have hge := Nat.not_lt.mp hp
      have hz : n.testBit place = false :=
        Nat.testBit_lt_two_pow (Nat.lt_of_lt_of_le hnw (Nat.pow_le_pow_right (by decide) hge))
      have hd : place / width = (place - width) / width + 1 := by
        rw [Nat.div_eq_sub_div hw hge]
      have hr := hi hs (place - width)
      rw [hm, has_natCast, ←Nat.mod_eq_sub_mod hge] at hr
      simp [hz, hge, hr, hd]

end BinMarket.Bits
