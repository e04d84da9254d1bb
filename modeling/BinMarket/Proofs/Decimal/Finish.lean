import BinMarket.Proofs.Decimal.Finite
import BinMarket.Proofs.Decimal.Nearest

/-!
The last step of an operation. What is rounded is either written in full or with enough digits to
decide, and it ends with the nearest number. What is too large to be written with the greatest
exponent is refused, and nothing else is.
-/

namespace BinMarket.Decimal

variable {p c j : Nat} {s : Bool} {e n : ℤ} {v l u : ℝ} {r : Except Failure Decimal}
  {x y : Decimal}

def turn (s : Bool) (v : ℝ) : ℝ := if s then -v else v

theorem turn_eq (s : Bool) (v : ℝ) : turn s v = signed s 1 * v := by
  cases s <;> simp [turn, signed]

theorem signed_eq (s : Bool) (c : Nat) : signed s c = signed s 1 * c := by
  cases s <;> simp [signed]

theorem value_finite (s : Bool) (c : Nat) (e : ℤ) :
    ((finite s c e).value : ℝ) = turn s (c * 10 ^ e) := by
  rw [turn_eq, value, signed_eq]
  push_cast
  ring

theorem value_ofInt (n : ℤ) : (ofInt n).value = n := by
  rw [ofInt, value, signed_natAbs, zpow_zero, mul_one]

theorem value_zero : zero.value = 0 := by
  simp [zero, value, signed]

theorem IsFinite.exists_of_pos (hx : x.IsFinite) (h₀ : 0 < x.value) :
    ∃ c e, x = finite false c e ∧ 0 < c ∧ (x.value : ℝ) = c * 10 ^ e := by
  cases hx
  case intro s c e =>
  rw [←Rat.cast_pos (K := ℝ), value_finite] at h₀
  have hpos : (0 : ℝ) ≤ c * 10 ^ e := coefficient_nonneg c e
  cases s
  case true  => exact absurd h₀ (not_lt.mpr (neg_nonpos.mpr hpos))
  case false =>
    refine ⟨c, e, rfl, Nat.pos_of_ne_zero ?_, value_finite ..⟩
    rintro rfl
    simp [turn] at h₀

@[simp] theorem abs_turn (s : Bool) (v : ℝ) : |turn s v| = |v| := by
  cases s <;> simp [turn]

theorem Fits.natCast (hc : c < tenTo p) (he : tiny p ≤ e) : Fits p (c * 10 ^ e) := by
  refine ⟨c, e, ?_, he, by push_cast; rfl⟩
  rw [tenTo, Nat.pow_eq] at hc
  rw [Nat.abs_cast]
  exact_mod_cast hc

theorem Rounds.turn {w : ℝ} (h : Rounds p v w) (s : Bool) :
    Rounds p (Decimal.turn s v) (Decimal.turn s w) := by
  cases s
  case false => exact h
  case true  => exact h.neg

-- The least size that is refused: half a unit above what can still be written.
def limit (p : Nat) : ℚ := (10 ^ p - 1 / 2) * 10 ^ top p

theorem cast_limit (p : Nat) : (limit p : ℝ) = (10 ^ p - 1 / 2) * 10 ^ top p := by
  rw [limit]
  push_cast
  rfl

theorem ten_zpow_le_limit (hp : 0 < p) : (10 : ℝ) ^ maxExponent ≤ limit p := by
  have hk : (10 : ℝ) ^ maxExponent = 10 ^ (p - 1) * 10 ^ top p := by
    rw [←zpow_natCast, ←zpow_add₀ (by norm_num), top]
    congr 1
    omega
  have hp' : (10 : ℝ) ^ p = 10 * 10 ^ (p - 1) := by
    rw [←pow_succ']
    congr 1
    omega
  have h1 : (1 : ℝ) ≤ 10 ^ (p - 1) := one_le_pow₀ (by norm_num)
  rw [hk, cast_limit, hp']
  exact mul_le_mul_of_nonneg_right (by linarith) (ten_zpow_pos _).le

theorem limit_le_ten_zpow (p : Nat) : (limit p : ℝ) ≤ 10 ^ (top p + p) := by
  rw [cast_limit, zpow_add₀ (by norm_num), zpow_natCast, mul_comm]
  exact mul_le_mul_of_nonneg_left (by linarith) (ten_zpow_pos _).le

theorem Fits.abs_lt_limit (hp : 0 < p) (h : Fits p v) (hv : |v| < 10 ^ (top p + p)) :
    |v| < limit p := by
  obtain ⟨m, k, hm, hk, rfl⟩ := h
  have hu := ten_zpow_pos (top p)
  rcases le_or_gt (top p) k with hle | hlt
  · -- a multiple of the last place of the greatest numbers
    have ⟨n, hn⟩ := exists_on_grid hle m
    rw [hn, abs_mul, abs_of_pos hu] at hv ⊢
    rw [zpow_add₀ (by norm_num), zpow_natCast, mul_comm] at hv
    have hlt : |n| < 10 ^ p := by exact_mod_cast lt_of_mul_lt_mul_left hv hu.le
    have hle : (|n| : ℝ) ≤ 10 ^ p - 1 := by exact_mod_cast Int.le_sub_one_of_lt hlt
    rw [cast_limit]
    exact mul_lt_mul_of_pos_right (by linarith) hu
  · rw [top] at hlt
    exact (abs_mul_zpow_lt hm (by omega)).trans_le (ten_zpow_le_limit hp)

theorem natCast_mul_lt {k : Nat} (hc : c < tenTo k) (hk : e + k ≤ n) :
    (c * 10 ^ e : ℝ) < 10 ^ n := by
  calc (c * 10 ^ e : ℝ)
    _ < tenTo k * 10 ^ e := mul_lt_mul_of_pos_right (by exact_mod_cast hc) (ten_zpow_pos e)
    _ = 10 ^ (e + k) := by rw [natCast_tenTo, zpow_add₀ (by norm_num), zpow_natCast, mul_comm]
    _ ≤ 10 ^ n := zpow_le_zpow_right₀ (by norm_num) hk

-- What an operation ends with when its exact result is `v`.
inductive Rounded (p : Nat) (v : ℝ) : Except Failure Decimal → Prop
  | ok {x : Decimal} : x.IsFinite → |(x.value : ℝ)| < limit p → Rounds p v x.value →
    Rounded p v (.ok x)
  | overflow : limit p ≤ |v| → Rounded p v (.error .overflow)

-- Carrying into the next power of ten takes half a unit.
theorem Rounds.limit_le {w : ℝ} (h : Rounds p v w) (hw : w = 10 ^ p * 10 ^ n)
    (hn : top p ≤ n) : limit p ≤ v := by
  have hu := ten_zpow_pos n
  have htop : tiny p ≤ n := by
    rw [top, maxExponent] at hn
    rw [tiny, minExponent]
    omega
  have hg : Fits p ((10 ^ p - 1 : ℤ) * 10 ^ n) := by
    refine ⟨10 ^ p - 1, n, ?_, htop, rfl⟩
    have : (1 : ℤ) ≤ 10 ^ p := one_le_pow₀ (by norm_num)
    rw [abs_of_nonneg (by omega)]
    omega
  push_cast at hg
  have hhalf := (nearer_iff_of_lt (by rw [hw]; linarith)).mp (h.nearest _ hg)
  rw [hw] at hhalf
  have h1 : (1 : ℝ) ≤ 10 ^ p := one_le_pow₀ (by norm_num)
  calc (limit p : ℝ)
    _ = (10 ^ p - 1 / 2) * 10 ^ top p := cast_limit p
    _ ≤ (10 ^ p - 1 / 2) * 10 ^ n :=
      mul_le_mul_of_nonneg_left (zpow_le_zpow_right₀ (by norm_num) hn) (by linarith)
    _ ≤ v := by linarith

namespace Rounded

theorem isFinite (h : Rounded p v (.ok x)) : x.IsFinite := by
  cases h
  assumption

theorem lt_limit (h : Rounded p v (.ok x)) : |(x.value : ℝ)| < limit p := by
  cases h
  assumption

theorem rounds (h : Rounded p v (.ok x)) : Rounds p v x.value := by
  cases h
  assumption

theorem exists_ok (h : Rounded p v r) (hv : |v| < limit p) :
    ∃ x, r = .ok x ∧ x.IsFinite ∧ Rounds p v x.value := by
  cases h
  case ok hx _ h  => exact ⟨_, rfl, hx, h⟩
  case overflow h => exact absurd h (not_le.mpr hv)

-- What has few enough digits is not rounded at all.
theorem exists_eq {m k : ℤ} (hp : 0 < p) (h : Rounded p (m * 10 ^ k) r) (hm : |m| < 10 ^ p)
    (hk : tiny p ≤ k) (hk' : k + p ≤ maxExponent) :
    ∃ x, r = .ok x ∧ x.IsFinite ∧ (x.value : ℝ) = m * 10 ^ k := by
  have hlt := (abs_mul_zpow_lt hm hk').trans_le (ten_zpow_le_limit hp)
  have ⟨x, he, hx, hr⟩ := h.exists_ok hlt
  exact ⟨x, he, hx, hr.eq_of_fits ⟨m, k, hm, hk, rfl⟩⟩

theorem between_ok (hl : Rounded p l (.ok x)) (hu : Rounded p u (.ok x)) (hlv : l ≤ v)
    (hvu : v ≤ u) : Rounded p v (.ok x) :=
  .ok hl.isFinite hl.lt_limit (hl.rounds.between hu.rounds hlv hvu)

theorem between (hl : Rounded p l r) (hu : Rounded p u r) (h₀ : 0 ≤ l) (hlv : l ≤ v)
    (hvu : v ≤ u) : Rounded p v r := by
  cases hl
  case ok hx hlt hl => exact between_ok (.ok hx hlt hl) hu hlv hvu
  case overflow hl =>
    rw [abs_of_nonneg h₀] at hl
    exact .overflow (hl.trans (hlv.trans (le_abs_self v)))

end Rounded

-- What a coefficient can stand for when it is about to be rounded to `p` digits: itself or, with
-- digits to spare, any number between the same two multiples of five.
inductive Stands (p c : Nat) (e : ℤ) (v : ℝ) : Prop
  | exactly : v = c * 10 ^ e → Stands p c e v
  | between {a : Nat} : 10 ^ p ≤ c → 5 * a < c → c < 5 * a + 5 →
    (5 * a) * 10 ^ e < v → v < (5 * a + 5) * 10 ^ e → Stands p c e v

namespace Stands

theorem le_iff (h : Stands p c e v) (hn : 10 ^ p ≤ c → 5 ∣ n) : n * 10 ^ e ≤ v ↔ n ≤ c := by
  have hu := ten_zpow_pos e
  cases h
  case exactly h =>
    rw [h, mul_le_mul_iff_left₀ hu]
    norm_cast
  case between a hp hlo hhi hlv hvu =>
    obtain ⟨b, rfl⟩ := hn hp
    constructor <;> intro h
    · have := lt_of_mul_lt_mul_right (h.trans_lt hvu) hu.le
      have : 5 * b < 5 * a + 5 := by exact_mod_cast this
      omega
    · have : (b : ℝ) ≤ a := by exact_mod_cast (show b ≤ a by omega)
      refine le_trans ?_ hlv.le
      push_cast
      exact mul_le_mul_of_nonneg_right (by linarith) hu.le

theorem ge_iff (h : Stands p c e v) (hn : 10 ^ p ≤ c → 5 ∣ n) : v ≤ n * 10 ^ e ↔ c ≤ n := by
  have hu := ten_zpow_pos e
  cases h
  case exactly h =>
    rw [h, mul_le_mul_iff_left₀ hu]
    norm_cast
  case between a hp hlo hhi hlv hvu =>
    obtain ⟨b, rfl⟩ := hn hp
    constructor <;> intro h
    · have := lt_of_mul_lt_mul_right (hlv.trans_le h) hu.le
      have : 5 * (a : ℤ) < 5 * b := by exact_mod_cast this
      omega
    · have : (a : ℝ) + 1 ≤ b := by exact_mod_cast (show (a : ℤ) + 1 ≤ b by omega)
      refine hvu.le.trans ?_
      push_cast
      exact mul_le_mul_of_nonneg_right (by linarith) hu.le

theorem nonneg (h : Stands p c e v) : 0 ≤ v := by
  have := (h.le_iff (n := 0) (by simp)).mpr (by omega)
  simpa using this

theorem lead_le (hp : 0 < p) (hc : 0 < c) (h : Stands p c e v) :
    10 ^ (e + digitCount c - 1) ≤ v := by
  have hd := digitCount_pos c
  have hn : 10 ^ p ≤ c → (5 : ℤ) ∣ tenTo (digitCount c - 1) := by
    intro hpc
    obtain ⟨i, hi⟩ : ∃ i, digitCount c - 1 = i + 1 := by
      have hlt := (Nat.pow_lt_pow_iff_right (a := 10) (by norm_num)).mp
        (hpc.trans_lt (lt_tenTo_digitCount c))
      exact ⟨digitCount c - 2, by omega⟩
    rw [hi, tenTo_succ]
    omega
  have h := (h.le_iff hn).mpr (by exact_mod_cast tenTo_le_of_digitCount hc)
  rw [Int.cast_natCast, natCast_tenTo, ←zpow_natCast, ←zpow_add₀ (by norm_num)] at h
  convert h using 2
  omega

end Stands

-- Coefficients with too few digits are not even compared with half a unit.
theorem dropDigits_eq (hj : 0 < j) : dropDigits c j = halfEven c (tenTo j) := by
  unfold dropDigits
  split
  case isFalse => rfl
  case isTrue h =>
    obtain ⟨i, rfl⟩ : ∃ i, j = i + 1 := ⟨j - 1, by omega⟩
    have hc := (lt_tenTo_digitCount c).trans_le (tenTo_le_tenTo (show _ ≤ i by omega))
    rw [halfEven_eq_zero]
    rw [tenTo_succ]
    omega

-- What is cut off is half a unit at most, and just that only from an even coefficient. Halves of
-- units are multiples of five, so this also holds for what the coefficient stands for.
theorem Stands.cut (h : Stands p c e v) (hj : 0 < j) :
    |v - dropDigits c j * 10 ^ (e + j)| ≤ 10 ^ (e + j) / 2 ∧
      (|v - dropDigits c j * 10 ^ (e + j)| = 10 ^ (e + j) / 2 → Even (dropDigits c j)) := by
  obtain ⟨i, rfl⟩ : ∃ i, j = i + 1 := ⟨j - 1, by omega⟩
  have ⟨h₁, h₂⟩ := halfEven_near c (tenTo_pos (i + 1))
  have heven := even_halfEven (n := c) (tenTo_pos (i + 1))
  have hz : (10 : ℝ) ^ (e + (i + 1 : Nat)) = 10 * tenTo i * 10 ^ e := by
    rw [natCast_tenTo, zpow_add₀ (by norm_num), zpow_natCast, pow_succ]
    ring
  rw [dropDigits_eq hj, hz]
  generalize halfEven c (tenTo (i + 1)) = m at *
  obtain ⟨q, hq⟩ : ∃ q, q = tenTo i * m := ⟨_, rfl⟩
  rw [tenTo_succ, mul_assoc, ←hq] at h₁ h₂ heven
  have hqr : (m * (10 * tenTo i * 10 ^ e) : ℝ) = 10 * q * 10 ^ e := by
    rw [hq]
    push_cast
    ring
  -- the two halves of units next to what is kept
  have hlo := h.le_iff (n := 5 * (2 * q - tenTo i)) (fun _ => Int.dvd_mul_right ..)
  have hhi := h.ge_iff (n := 5 * (2 * q + tenTo i)) (fun _ => Int.dvd_mul_right ..)
  have hlo' := h.ge_iff (n := 5 * (2 * q - tenTo i)) (fun _ => Int.dvd_mul_right ..)
  have hhi' := h.le_iff (n := 5 * (2 * q + tenTo i)) (fun _ => Int.dvd_mul_right ..)
  push_cast at hlo hhi hlo' hhi'
  have hvlo := hlo.mpr (by omega)
  have hvhi := hhi.mpr (by omega)
  rw [hqr, abs_le]
  refine ⟨⟨by linarith, by linarith⟩, fun heq => Nat.even_iff.mpr (heven ?_)⟩
  rcases eq_or_eq_neg_of_abs_eq heq with hv | hv
  · have := hhi'.mp (by linarith)
    exact .inr (by omega)
  · have := hlo'.mp (by linarith)
    exact .inl (by omega)

theorem rounds_dropDigits (hp : 0 < p) (hc : 0 < c) (h : Stands p c e v)
    (hk : n = max (e + digitCount c - p) (tiny p)) (he : e < n) :
    dropDigits c (n - e).toNat ≤ tenTo p ∧ Rounds p v (dropDigits c (n - e).toNat * 10 ^ n) := by
  have hen : e + ((n - e).toNat : ℤ) = n := by omega
  have hcut := h.cut (j := (n - e).toNat) (by omega)
  have hle := dropDigits_le (c := c) (p := p) (k := (n - e).toNat) (by omega)
  rw [hen] at hcut
  refine ⟨hle, ?_⟩
  have hr := Rounds.of_grid (p := p) (m := dropDigits c (n - e).toNat) (k := n) (v := v) hp
    (hk ▸ le_max_right ..) ?_ ?_ (by exact_mod_cast hcut.left)
    (fun he => by exact_mod_cast hcut.right (by exact_mod_cast he))
  · exact_mod_cast hr
  · rcases max_choice (e + digitCount c - p) (tiny p) with hc' | hc' <;> rw [hc'] at hk
    · refine .inr ?_
      rw [abs_of_nonneg h.nonneg, hk]
      convert h.lead_le hp hc using 2
      omega
    · exact .inl hk
  · rw [tenTo, Nat.pow_eq] at hle
    rw [Nat.abs_cast]
    exact_mod_cast hle

theorem Rounds.rounded_finite (hp : 0 < p) (h : Rounds p v (c * 10 ^ e))
    (hlt : (c * 10 ^ e : ℝ) < 10 ^ (top p + p)) (s : Bool) :
    Rounded p (Decimal.turn s v) (.ok (finite s c e)) := by
  have hpos : (0 : ℝ) ≤ c * 10 ^ e := coefficient_nonneg c e
  refine .ok .intro ?_ ?_
  · rw [value_finite, abs_turn]
    exact h.fits.abs_lt_limit hp (by rwa [abs_of_nonneg hpos])
  · rw [value_finite]
    exact h.turn s

-- A coefficient that the carry has made a power of ten is written with one digit less.
theorem Rounds.rounded_carry (hp : 0 < p) (h : Rounds p v (tenTo p * 10 ^ n)) (h₀ : 0 ≤ v)
    (s : Bool) : Rounded p (Decimal.turn s v)
      (if top p < n + 1 then .error .overflow else .ok (finite s (tenTo p / 10) (n + 1))) := by
  split
  case isTrue ht =>
    refine .overflow ?_
    rw [abs_turn, abs_of_nonneg h₀]
    exact h.limit_le (by rw [natCast_tenTo]) (by omega)
  case isFalse ht =>
    obtain ⟨q, rfl⟩ : ∃ q, p = q + 1 := ⟨p - 1, by omega⟩
    have hten : tenTo (q + 1) / 10 = tenTo q := by
      rw [tenTo_succ]
      omega
    have hv : ((tenTo q : Nat) * 10 ^ (n + 1) : ℝ) = tenTo (q + 1) * 10 ^ n := by
      rw [tenTo_succ, zpow_add_one₀ (by norm_num)]
      push_cast
      ring
    have hlt : tenTo q < tenTo (q + 1) := by
      rw [tenTo_succ]
      have := tenTo_pos q
      omega
    rw [hten]
    exact rounded_finite hp (by rwa [hv]) (natCast_mul_lt hlt (by omega)) s

theorem finish_zero_rounded (hp : 0 < p) (h : Stands p 0 e v) (s : Bool) :
    Rounded p (turn s v) (.ok (finite s 0 n)) := by
  have hle : v ≤ 0 := by simpa using (h.ge_iff (n := 0) (by simp)).mpr le_rfl
  have hv : v = 0 := le_antisymm hle h.nonneg
  refine Rounds.rounded_finite hp ?_ ?_ s
  · rw [hv, Nat.cast_zero, zero_mul]
    exact .of_fits (.zero p)
  · rw [Nat.cast_zero, zero_mul]
    exact ten_zpow_pos _

-- What has few enough digits and no smaller exponent than there is stays as it is.
theorem finish_short_rounded (hp : 0 < p) (h : Stands p c e v) (hc : digitCount c ≤ p)
    (he : tiny p ≤ e) (htop : e + digitCount c ≤ top p + p) (s : Bool) :
    Rounded p (turn s v) (.ok (finite s c e)) := by
  have hlt : c < tenTo p := (digitCount_le_iff hp).mp hc
  have hv : v = c * 10 ^ e := by
    cases h
    case exactly hv          => exact hv
    case between hp' _ _ _ _ => exact absurd hp' (not_le.mpr hlt)
  rw [hv]
  exact (Rounds.of_fits (.natCast hlt he)).rounded_finite hp
    (natCast_mul_lt (lt_tenTo_digitCount c) htop) s

-- What is cut has as many digits as it may have, or one more that the carry has left.
theorem finish_long_rounded (hp : 0 < p) (hc : 0 < c) (h : Stands p c e v)
    (hn : n = max (e + digitCount c - p) (tiny p)) (he : e < n) (htop : n ≤ top p) (s : Bool) :
    Rounded p (turn s v)
      (if digitCount (dropDigits c (n - e).toNat) ≤ p then
        .ok (finite s (dropDigits c (n - e).toNat) n)
      else if top p < n + 1 then .error .overflow
      else .ok (finite s (dropDigits c (n - e).toNat / 10) (n + 1))) := by
  obtain ⟨hm, hr⟩ := rounds_dropDigits hp hc h hn he
  generalize dropDigits c (n - e).toNat = m at *
  split
  case isTrue hm' =>
    exact hr.rounded_finite hp (natCast_mul_lt ((digitCount_le_iff hp).mp hm') (by omega)) s
  case isFalse hm' =>
    have hm : m = tenTo p := by
      rw [digitCount_le_iff hp] at hm'
      omega
    rw [hm] at hr ⊢
    exact hr.rounded_carry hp h.nonneg s

theorem finish_rounded (hp : 0 < p) (h : Stands p c e v) (s : Bool) :
    Rounded p (turn s v) (finish p s c e) := by
  unfold finish
  split
  case isTrue hc =>
    subst hc
    exact finish_zero_rounded hp h s
  case isFalse hc =>
    have hc : 0 < c := Nat.pos_of_ne_zero hc
    dsimp only
    split
    case isTrue ht =>
      refine .overflow ?_
      rw [abs_turn, abs_of_nonneg h.nonneg]
      refine (limit_le_ten_zpow p).trans (le_trans ?_ (h.lead_le hp hc))
      exact zpow_le_zpow_right₀ (by norm_num) (by omega)
    case isFalse ht =>
      generalize hk : max (e + digitCount c - p) (tiny p) = n
      have htiny : tiny p ≤ top p := by
        simp only [tiny, top, minExponent, maxExponent]
        omega
      split
      case isTrue hle  => exact finish_short_rounded hp h (by omega) (by omega) (by omega) s
      case isFalse hle => exact finish_long_rounded hp hc h hk.symm (by omega) (by omega) s

theorem IsNormal.le_abs_value (h : x.IsNormal) : 10 ^ minExponent ≤ |(x.value : ℝ)| := by
  cases h
  case intro s c e hc he =>
  rw [value_finite, abs_turn, abs_of_nonneg (coefficient_nonneg c e)]
  refine (zpow_le_zpow_right₀ (by norm_num) he).trans ?_
  exact (Stands.exactly (p := 1) rfl).lead_le one_pos hc

end BinMarket.Decimal
