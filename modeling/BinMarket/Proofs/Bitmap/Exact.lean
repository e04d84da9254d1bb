import BinMarket.BinArray.Basic
import BinMarket.Proofs.Bitmap.Search

/-!
Where liquidity is found. Read bit by bit from the words as they are stored, the bitmaps say which
arrays hold liquidity, and the search over packed words finds the nearest of them.
-/

namespace BinMarket

variable {d : Direction} {p : Pool} {e : Option Extension} {x : Extension} {active i j : Int}
  {side : Vector (Vector Int 8) 12} {place : Nat}

namespace Extension

theorem sideHas_eq_any : sideHas side place =
    side[place / 512]?.any fun row => row[place % 512 / 64]?.any (Bits.has · (place % 64)) := by
  rw [sideHas]
  cases side[place / 512]?
  case none => rfl
  case some row =>
    simp only [Option.any_some]
    cases row[place % 512 / 64]? <;> rfl

theorem sideHas_eq_false (h : 6144 ≤ place) : sideHas side place = false := by
  rw [sideHas_eq_any, Vector.getElem?_eq_none (by omega), Option.any_none]

variable (h : ∀ row ∈ side, ∀ word ∈ row, Bits.Fits 64 word)
include h

theorem fits_row : ∀ row ∈ side.toList.map (·.toList), Bits.Fits 512 (Bits.packWords row) := by
  intro words hw
  obtain ⟨row, hr, rfl⟩ := List.mem_map.mp hw
  have := Bits.fits_pack fun word hm => h row (Vector.mem_toList_iff.mp hr) word
    (Vector.mem_toList_iff.mp hm)
  rwa [Vector.length_toList] at this

theorem fits_rows : ∀ bits ∈ (side.toList.map (·.toList)).map Bits.packWords,
    Bits.Fits 512 bits := by
  intro bits hb
  obtain ⟨words, hw, rfl⟩ := List.mem_map.mp hb
  exact fits_row h words hw

theorem fits_sideBits : Bits.Fits 6144 (sideBits side) := by
  have := Bits.fits_pack (fits_rows h)
  rwa [List.length_map, List.length_map, Vector.length_toList] at this

theorem has_sideBits (place : Nat) : Bits.has (sideBits side) place = sideHas side place := by
  rw [sideBits, Bits.packRows, Bits.has_pack (by decide) (fits_rows h), sideHas_eq_any]
  simp only [List.getElem?_map, Vector.getElem?_toList, Option.any_map]
  cases hr : side[place / 512]?
  case none => rfl
  case some row =>
    have hm : ∀ word ∈ row.toList, Bits.Fits 64 word := fun word hw =>
      h row (Vector.mem_of_getElem? hr) word (Vector.mem_toList_iff.mp hw)
    have hd : place % 512 % 64 = place % 64 := by omega
    simp only [Option.any_some, Bits.packWords, Bits.has_pack (by decide) hm,
      Vector.getElem?_toList, hd]

end Extension

namespace Pool

theorem inlineHas_eq_any : p.inlineHas i =
    p.words[(i + 512).toNat / 64]?.any (Bits.has · ((i + 512).toNat % 64)) := by
  rw [inlineHas, BinArray.inlineLowest, Int.sub_neg]
  cases p.words[(i + 512).toNat / 64]? <;> rfl

-- Every bitmap word of a pool and its extension has 64 bits.
structure WordsFit (p : Pool) (e : Option Extension) : Prop where
  inline : ∀ word ∈ p.words, Bits.Fits 64 word
  above  : ∀ x ∈ e, ∀ row ∈ x.positive, ∀ word ∈ row, Bits.Fits 64 word
  below  : ∀ x ∈ e, ∀ row ∈ x.negative, ∀ word ∈ row, Bits.Fits 64 word

instance (p : Pool) (e : Option Extension) : Decidable (p.WordsFit e) :=
  decidable_of_iff (_ ∧ _ ∧ _)
    ⟨fun ⟨inline, above, below⟩ => ⟨inline, above, below⟩,
      fun ⟨inline, above, below⟩ => ⟨inline, above, below⟩⟩

theorem WordsFit.forall_mem_toList (h : p.WordsFit e) :
    ∀ word ∈ p.words.toList, Bits.Fits 64 word :=
  fun word hw => h.inline word (Vector.mem_toList_iff.mp hw)

theorem WordsFit.sized (h : p.WordsFit e) : ∀ t ∈ p.tiers e, t.Sized := by
  have hi : p.inlineTier.Sized := by
    have := Bits.fits_pack h.forall_mem_toList
    rwa [Vector.length_toList] at this
  cases e
  case none =>
    intro t ht
    rwa [List.mem_singleton.mp ht]
  case some x =>
    intro t ht
    simp only [tiers, List.mem_cons, List.not_mem_nil, or_false] at ht
    rcases ht with rfl | rfl | rfl
    · exact Extension.fits_sideBits (h.below x rfl)
    · exact hi
    · exact Extension.fits_sideBits (h.above x rfl)

theorem WordsFit.marked_inline_iff (h : p.WordsFit e) :
    p.inlineTier.Marked i ↔ BinArray.overflowsInline i = false ∧ p.inlineHas i = true := by
  have hb : Bits.has p.inlineTier.bits (p.inlineTier.place i).toNat = p.inlineHas i := by
    simp only [inlineTier, Tier.place, Bits.packWords, inlineHas_eq_any, BinArray.inlineLowest,
      Bits.has_pack (by decide : 0 < 64) h.forall_mem_toList, Vector.getElem?_toList, Int.sub_neg,
      Bool.false_eq_true, if_false]
  have hc : p.inlineTier.Covers i ↔ BinArray.overflowsInline i = false := by
    simp only [Tier.Covers, inlineTier, BinArray.overflowsInline, Bool.or_eq_false_iff,
      decide_eq_false_iff_not]
    omega
  rw [Tier.Marked, hb, hc]

theorem WordsFit.marked_above_iff (h : p.WordsFit (some x)) :
    x.above.Marked i ↔ 511 < i ∧ Extension.sideHas x.positive (i - 512).toNat = true := by
  have hb : Bits.has x.above.bits (x.above.place i).toNat =
      Extension.sideHas x.positive (i - 512).toNat := by
    rw [←Extension.has_sideBits (h.above x rfl)]
    rfl
  rw [Tier.Marked, hb]
  refine and_congr_left fun hs => ?_
  have hl : (i - 512).toNat < 6144 := by
    refine Nat.lt_of_not_le fun hge => ?_
    simp [Extension.sideHas_eq_false hge] at hs
  simp only [Tier.Covers, Extension.above, Extension.highest, BinArray.inlineHighest]
  omega

theorem WordsFit.marked_below_iff (h : p.WordsFit (some x)) :
    x.below.Marked i ↔ i < -512 ∧ Extension.sideHas x.negative (-i - 513).toNat = true := by
  have hp : x.below.place i = -i - 513 := by
    simp only [Tier.place, Extension.below, BinArray.inlineLowest, if_true]
    omega
  have hb : Bits.has x.below.bits (x.below.place i).toNat =
      Extension.sideHas x.negative (-i - 513).toNat := by
    rw [hp, ←Extension.has_sideBits (h.below x rfl)]
    rfl
  rw [Tier.Marked, hb]
  refine and_congr_left fun hs => ?_
  have hl : (-i - 513).toNat < 6144 := by
    refine Nat.lt_of_not_le fun hge => ?_
    simp [Extension.sideHas_eq_false hge] at hs
  simp only [Tier.Covers, Extension.below, Extension.lowest, BinArray.inlineLowest]
  omega

-- The ranges and their packed words say the same about liquidity as the stored words.
theorem WordsFit.exists_marked_iff (h : p.WordsFit e) :
    (∃ t ∈ p.tiers e, t.Marked i) ↔ p.isLiquid e i = true := by
  cases e
  case none =>
    simp only [tiers, List.mem_singleton, exists_eq_left, h.marked_inline_iff, isLiquid]
    cases BinArray.overflowsInline i <;> simp
  case some x =>
    simp only [tiers, List.mem_cons, List.not_mem_nil, or_false, exists_eq_or_imp, exists_eq_left,
      h.marked_inline_iff, h.marked_above_iff, h.marked_below_iff, isLiquid]
    have ho : BinArray.overflowsInline i = true ↔ 511 < i ∨ i < -512 := by
      rw [BinArray.overflowsInline, Bool.or_eq_true, decide_eq_true_iff, decide_eq_true_iff]
      rfl
    cases hc : BinArray.overflowsInline i
    case false =>
      have : ¬(511 < i ∨ i < -512) := by rw [←ho, hc]; decide
      simp only [true_and, Bool.false_eq_true, if_false]
      grind
    case true =>
      have := ho.mp hc
      simp only [if_true, BinArray.inlineHighest]
      grind

theorem exists_covers_iff : (∃ t ∈ p.tiers e, t.Covers i) ↔ Covers e i := by
  cases e
  case none => simp [tiers, Covers, Tier.Covers, inlineTier]
  case some x =>
    simp only [tiers, List.mem_cons, List.not_mem_nil, or_false, exists_eq_or_imp, exists_eq_left,
      Covers, Tier.Covers, inlineTier, Extension.below, Extension.above, Extension.lowest,
      Extension.highest, BinArray.inlineLowest, BinArray.inlineHighest]
    omega

theorem WordsFit.covers_of_isLiquid (h : p.WordsFit e) (hl : p.isLiquid e i = true) :
    Covers e i := by
  have ⟨t, ht, hm⟩ := h.exists_marked_iff.mpr hl
  exact exists_covers_iff.mp ⟨t, ht, hm.left⟩

theorem mem_inOrder {t : Tier} {tiers : List Tier} : t ∈ Locator.inOrder d tiers ↔ t ∈ tiers := by
  cases d <;> simp [Locator.inOrder]

theorem inTurn_tiers (p : Pool) (e : Option Extension) (d : Direction) :
    Locator.InTurn d (Locator.inOrder d (p.tiers e)) := by
  cases e
  case none => cases d <;> exact .single _
  case some x =>
    cases d <;>
      simp only [Locator.inOrder, tiers, List.reverse_cons, List.reverse_nil, List.nil_append,
        List.cons_append] <;>
      refine .cons ?_ ?_ (.cons ?_ ?_ (.single _)) <;>
      simp only [List.mem_cons, List.not_mem_nil, or_false, forall_eq_or_imp, forall_eq,
        Tier.Covers, Tier.beyond, Direction.reaches, inlineTier, Extension.below, Extension.above,
        Extension.lowest, Extension.highest, BinArray.inlineLowest, BinArray.inlineHighest] <;>
      grind

theorem nextArray_eq_none_of_not_covers (h : ¬Covers e (BinArray.indexOf active)) :
    p.nextArray e d active = none := by
  cases hn : p.nextArray e d active
  case none   => rfl
  case some i => exact absurd (exists_covers_iff.mp (Locator.covers_of_next? hn)) h

theorem covers_of_reaches (hi : Covers e i) (hj : Covers e j) {k : Int} (hik : d.reaches i k)
    (hkj : d.reaches k j) : Covers e k := by
  cases e <;> cases d <;> simp only [Covers, Direction.reaches] at * <;> omega

theorem WordsFit.nearest_nextArray (h : p.WordsFit e) (hc : Covers e (BinArray.indexOf active)) :
    d.Nearest (p.isLiquid e · = true) (BinArray.indexOf active) (p.nextArray e d active) := by
  have ⟨t, ht, hct⟩ := exists_covers_iff (p := p).mpr hc
  have hn := Locator.nearest_search (d := d) (fun u hu => h.sized u (mem_inOrder.mp hu))
    (inTurn_tiers p e d) ⟨t, mem_inOrder.mpr ht, hct⟩
  simp only [mem_inOrder] at hn
  exact hn.congr fun j => h.exists_marked_iff

theorem WordsFit.nextArray_eq_some_iff (h : p.WordsFit e) :
    p.nextArray e d active = some i ↔
      Covers e (BinArray.indexOf active) ∧ p.isLiquid e i = true ∧
      d.reaches (BinArray.indexOf active) i ∧
      ∀ j, p.isLiquid e j = true → d.reaches (BinArray.indexOf active) j → d.reaches i j := by
  by_cases hc : Covers e (BinArray.indexOf active)
  case neg => simp [nextArray_eq_none_of_not_covers hc, hc]
  case pos =>
    have hn := h.nearest_nextArray (d := d) hc
    constructor
    case mp =>
      intro hi
      rw [hi] at hn
      exact ⟨hc, hn.right.left, hn.left, fun j hl hr => hn.right.right j hr hl⟩
    case mpr =>
      intro ⟨_, hl, hr, hm⟩
      exact hn.unique ⟨hr, hl, fun k hk hlk => hm k hlk hk⟩

theorem WordsFit.nextArray_eq_none_iff (h : p.WordsFit e) :
    p.nextArray e d active = none ↔
      ¬Covers e (BinArray.indexOf active) ∨
      ∀ j, p.isLiquid e j = true → ¬d.reaches (BinArray.indexOf active) j := by
  by_cases hc : Covers e (BinArray.indexOf active)
  case neg => simp [nextArray_eq_none_of_not_covers hc, hc]
  case pos =>
    have hn := h.nearest_nextArray (d := d) hc
    constructor
    case mp =>
      intro hi
      rw [hi] at hn
      exact .inr fun j hl hr => hn j hr hl
    case mpr =>
      intro hj
      exact hn.unique fun j hr hl => hj.resolve_left (not_not_intro hc) j hl hr

theorem WordsFit.nextArray_of_holds (h : p.WordsFit e) {bin : Int}
    (hn : p.nextArray e d active = some i) (hb : BinArray.Holds i bin) :
    p.nextArray e d bin = some i := by
  have ⟨_, hl, _, hm⟩ := h.nextArray_eq_some_iff.mp hn
  rw [h.nextArray_eq_some_iff, BinArray.holds_iff.mp hb]
  refine ⟨h.covers_of_isLiquid hl, hl, Direction.reaches_refl .., fun j _ hr => hr⟩

-- The search finds exactly the nearest liquid array of the covered indexes:
-- 1. the array that it answers is liquid, and no liquid one lies before it on the way
-- 2. it has no answer just when the start is not covered or no liquid array lies ahead
-- 3. from any bin of the array that it answers, it answers the same
theorem nextArray_exact (h : p.WordsFit e) (d : Direction) (active : Int) :
    (∀ i, p.nextArray e d active = some i ↔
      Covers e (BinArray.indexOf active) ∧ p.isLiquid e i = true ∧
      d.reaches (BinArray.indexOf active) i ∧
      ∀ j, p.isLiquid e j = true → d.reaches (BinArray.indexOf active) j → d.reaches i j) ∧
    (p.nextArray e d active = none ↔
      ¬Covers e (BinArray.indexOf active) ∨
      ∀ j, p.isLiquid e j = true → ¬d.reaches (BinArray.indexOf active) j) ∧
    (∀ i bin, p.nextArray e d active = some i → BinArray.Holds i bin →
      p.nextArray e d bin = some i) ∧
    ∀ i, p.isLiquid e i = true → Covers e i :=
  ⟨fun _ => h.nextArray_eq_some_iff, h.nextArray_eq_none_iff,
    fun _ _ => h.nextArray_of_holds, fun _ => h.covers_of_isLiquid⟩

-- A pool whose own bitmap marks array 1 alone.
def sparse : Pool where
  binStep     := 10
  activeId    := 75
  fees        := { baseFactor := 10000, variableControl := 40000, protocolShare := 500 }
  volatility  := {}
  rewards     := ⟨{}, {}⟩
  accounts    := {}
  words       := (Vector.replicate 16 0).set 8 2
  key         := none
  binStep_pos := by decide

-- It marks the arrays -515 and 6655.
def sparseExtension : Extension where
  positive := (Vector.replicate 12 (Vector.replicate 8 0)).set 11
    ((Vector.replicate 8 0).set 7 9223372036854775808)
  negative := (Vector.replicate 12 (Vector.replicate 8 0)).set 0 ((Vector.replicate 8 0).set 0 4)

-- Of these two are at hand, each with one bin that has something to sell for X.
def sparseArrays : List BinArray := [
  { index := 1
    bins  := (Vector.replicate 70 {}).set 5
      { amountX := 100, amountY := 100, price := 18446744073709551616 }
    scale := .large },
  { index := -515
    bins  := (Vector.replicate 70 {}).set 69
      { amountY := 1000, price := 9223372036854775808 }
    scale := .large }]

theorem wordsFit_sparse : sparse.WordsFit (some sparseExtension) := by
  decide +kernel

theorem nextArray_exact_sparse :
    sparse.WordsFit (some sparseExtension) ∧
    sparse.nextArray (some sparseExtension) .xToY 69 = some (-515) ∧
    ∀ bin, BinArray.Holds (-515) bin →
      sparse.nextArray (some sparseExtension) .xToY bin = some (-515) := by
  have hw := wordsFit_sparse
  have hn : sparse.nextArray (some sparseExtension) .xToY 69 = some (-515) := by decide +kernel
  have ⟨_, _, hagain, _⟩ := nextArray_exact hw .xToY 69
  exact ⟨hw, hn, fun bin hb => hagain _ bin hn hb⟩

end Pool

end BinMarket
