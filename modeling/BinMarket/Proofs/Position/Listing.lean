import BinMarket.Position.Holdings
import BinMarket.Proofs.Arrays
import BinMarket.Proofs.Bins
import BinMarket.Proofs.Outcome
import BinMarket.Report.Basic

/-!
Ranges of bins, listed by the arrays at hand. A listing ends at the first bin that has no array or no
price, and only for want of an array is the caller told to fetch one.
-/

namespace BinMarket

variable {α β : Type} {x : Except Fault α} {f : α → Except Fault β} {xs : List α}
  {arrays : List BinArray} {a : BinArray} {b : Bin} {details : List (String × Detail)}
  {step decimalsX decimalsY lowest highest id : Int}

-- What a caller is told about a missing bin array, if that is what a fault is about.
def Fault.missing? (f : Fault) : Option (List (String × Detail)) :=
  (f.report?.filter (·.category = .missingBinArray)).map (·.details)

-- The same for a calculation that may have ended with a fault.
def missing? (x : Except Fault α) : Option (List (String × Detail)) :=
  match x with
  | .ok _    => none
  | .error f => f.missing?

-- The details that name a bin array.
def naming (index : Int) : List (String × Detail) := [("bin_array_index", .number index)]

theorem missing?_arrayNotFound (index : Int) :
    (Fault.arrayNotFound index).missing? = some (naming index) := rfl

theorem missing?_arrayMismatch (expected actual : Int) :
    (Fault.arrayMismatch expected actual).missing? = some (naming expected) := rfl

theorem missing?_eq_some_iff :
    missing? x = some details ↔ ∃ f, x = .error f ∧ f.missing? = some details := by
  cases x
  case ok      => exact ⟨nofun, nofun⟩
  case error f => exact ⟨fun h => ⟨f, rfl, h⟩, fun ⟨_, he, h⟩ => by cases he; exact h⟩

theorem missing?_bind (h : ∀ a, x = .ok a → missing? (f a) = none) :
    missing? (x >>= f) = missing? x := by
  cases x
  case ok a  => exact h a rfl
  case error => rfl

theorem missing?_mapM (h : ∀ x ∈ xs, missing? (f x) = none) : missing? (xs.mapM f) = none := by
  induction xs
  case nil          => rfl
  case cons x xs hi =>
    rw [List.mapM_cons, missing?_bind, h x List.mem_cons_self]
    intro _ _
    rw [missing?_bind fun _ _ => rfl]
    exact hi fun y hy => h y (List.mem_cons_of_mem _ hy)

-- Steps in a row ask for an array when the first of them that fails does.
theorem missing?_mapM_eq_some_iff {R : α → α → Prop} [Std.Asymm R] (h : xs.Pairwise R) :
    missing? (xs.mapM f) = some details ↔
      ∃ x ∈ xs, missing? (f x) = some details ∧ ∀ y ∈ xs, R y x → ∃ b, f y = .ok b := by
  simp only [missing?_eq_some_iff, mapM_eq_error_iff h]
  constructor
  case mp  => exact fun ⟨e, ⟨x, hx, hf, hbefore⟩, he⟩ => ⟨x, hx, ⟨e, hf, he⟩, hbefore⟩
  case mpr => exact fun ⟨x, hx, ⟨e, hf, he⟩, hbefore⟩ => ⟨e, ⟨x, hx, hf, hbefore⟩, he⟩

-- Arithmetic never asks for an array.
theorem missing?_liftM (x : Except Decimal.Failure α) :
    missing? (liftM x : Except Fault α) = none := by
  cases x <;> rfl

namespace Price

-- The price of a bin in both units.
def inBoth (step decimalsX decimalsY bin : Int) : Except Fault (Decimal × Decimal) := do
  let price ← ofBin step bin
  return (price, ← perToken (.decimal price) decimalsX decimalsY)

-- A bin whose prices in both units are in the range of decimals.
def Known (step decimalsX decimalsY bin : Int) : Prop :=
  ∃ prices, inBoth step decimalsX decimalsY bin = .ok prices

instance : Decidable (Known step decimalsX decimalsY id) :=
  decidable_of_iff ((inBoth step decimalsX decimalsY id).toOption.isSome) <| by
    rw [Known]
    cases inBoth step decimalsX decimalsY id <;> simp [Except.toOption]

theorem missing?_checkStep (step : Int) : missing? (checkStep step) = none := by
  unfold checkStep
  split <;> rfl

theorem missing?_ofBin (step bin : Int) : missing? (ofBin step bin) = none := by
  rw [ofBin, missing?_bind, missing?_checkStep]
  intro _ _
  rw [missing?_bind, missing?_liftM]
  exact fun _ _ => missing?_liftM _

theorem missing?_perToken (given : Given) (decimalsX decimalsY : Int) :
    missing? (perToken given decimalsX decimalsY) = none := by
  rw [perToken, missing?_bind, missing?_liftM]
  intro _ _
  rw [missing?_bind, missing?_liftM]
  exact fun _ _ => missing?_liftM _

theorem missing?_inBoth (step decimalsX decimalsY bin : Int) :
    missing? (inBoth step decimalsX decimalsY bin) = none := by
  rw [inBoth, missing?_bind, missing?_ofBin]
  intro _ _
  rw [missing?_bind fun _ _ => rfl, missing?_perToken]

end Price

-- What is listed of a bin without regard to who holds it.
structure Reserves where
  id            : Int
  price         : Decimal
  pricePerToken : Decimal
  amountX       : Int
  amountY       : Int
  supply        : Int
deriving DecidableEq

def Reserves.of (id : Int) (b : Bin) (prices : Decimal × Decimal) : Reserves :=
  ⟨id, prices.1, prices.2, b.amountX, b.amountY, b.supply⟩

-- A bin that can be listed: its array is at hand, and so are its prices.
structure Listable (arrays : List BinArray) (step decimalsX decimalsY id : Int) : Prop where
  array : BinArray.find? arrays (BinArray.indexOf id) ≠ none
  known : Price.Known step decimalsX decimalsY id

instance : Decidable (Listable arrays step decimalsX decimalsY id) :=
  decidable_of_iff (_ ∧ _)
    ⟨fun ⟨array, known⟩ => ⟨array, known⟩, fun ⟨array, known⟩ => ⟨array, known⟩⟩

namespace BinLiquidity

def reserves (l : BinLiquidity) : Reserves :=
  ⟨l.id, l.price, l.pricePerToken, l.amountX, l.amountY, l.supply⟩

theorem of_of_none (hn : BinArray.find? arrays (BinArray.indexOf id) = none) :
    BinLiquidity.of step decimalsX decimalsY arrays id =
      .error (.arrayNotFound (BinArray.indexOf id)) := by
  unfold BinLiquidity.of
  simp only [hn]
  rfl

theorem of_of_some (ha : BinArray.find? arrays (BinArray.indexOf id) = some a)
    (hb : a.bin id = .ok b) :
    BinLiquidity.of step decimalsX decimalsY arrays id =
      (Price.inBoth step decimalsX decimalsY id).map fun prices =>
        ⟨id, b.amountX, b.amountY, b.supply, a.scale, prices.1, prices.2⟩ := by
  unfold BinLiquidity.of
  simp only [ha, hb]
  rw [Price.inBoth, map_bind_eq]
  refine congrArg (Price.ofBin step id >>= ·) (funext fun price => ?_)
  rw [map_bind_eq]
  rfl

theorem map_reserves_of (ha : BinArray.find? arrays (BinArray.indexOf id) = some a)
    (hb : a.bin id = .ok b) :
    (BinLiquidity.of step decimalsX decimalsY arrays id).map (·.reserves) =
      (Price.inBoth step decimalsX decimalsY id).map (Reserves.of id b) := by
  rw [of_of_some ha hb]
  cases Price.inBoth step decimalsX decimalsY id <;> rfl

-- The array that is at hand for a bin has the bin.
theorem exists_bin (ha : BinArray.find? arrays (BinArray.indexOf id) = some a) :
    ∃ b, a.bin id = .ok b :=
  ⟨_, BinArray.bin_ok (BinArray.holds_iff.mpr (BinArray.index_of_find? ha).symm)⟩

theorem exists_of_iff : (∃ l, BinLiquidity.of step decimalsX decimalsY arrays id = .ok l) ↔
    Listable arrays step decimalsX decimalsY id := by
  cases ha : BinArray.find? arrays (BinArray.indexOf id)
  case none =>
    rw [of_of_none ha]
    exact ⟨fun ⟨_, h⟩ => absurd h.symm ok_ne_error, fun h => absurd ha h.array⟩
  case some a =>
    have ⟨b, hb⟩ := exists_bin ha
    have hne : BinArray.find? arrays (BinArray.indexOf id) ≠ none := ha ▸ Option.some_ne_none a
    rw [of_of_some ha hb]
    constructor
    case mp =>
      intro ⟨_, h⟩
      have ⟨prices, hp, _⟩ := exists_of_map_eq_ok h
      exact ⟨hne, prices, hp⟩
    case mpr =>
      intro ⟨_, prices, hp⟩
      exact ⟨_, congrArg (Except.map _) hp⟩

-- A bin without a price asks for nothing.
theorem missing?_of_eq_some_iff :
    missing? (BinLiquidity.of step decimalsX decimalsY arrays id) = some details ↔
      details = naming (BinArray.indexOf id) ∧
        BinArray.find? arrays (BinArray.indexOf id) = none := by
  cases ha : BinArray.find? arrays (BinArray.indexOf id)
  case none =>
    rw [of_of_none ha, missing?, missing?_arrayNotFound, Option.some_inj]
    exact ⟨fun h => ⟨h.symm, rfl⟩, fun h => h.left.symm⟩
  case some a =>
    have ⟨b, hb⟩ := exists_bin ha
    have hnone := Price.missing?_inBoth step decimalsX decimalsY id
    rw [of_of_some ha hb]
    cases hp : Price.inBoth step decimalsX decimalsY id
    case ok      => exact ⟨nofun, nofun⟩
    case error f =>
      rw [hp] at hnone
      exact ⟨fun h => absurd (hnone.symm.trans h) (Option.some_ne_none _).symm, nofun⟩

end BinLiquidity

theorem forBins_eq_mapM (f : Int → Except Fault α) (n : Nat) (id : Int) :
    forBins f n id = ((List.range n).map fun i => id + (i : Nat)).mapM f := by
  induction n generalizing id
  case zero      => rfl
  case succ n hi =>
    rw [List.range_succ_eq_map, List.map_cons, List.map_map, List.mapM_cons, forBins, hi]
    simp [Function.comp_def, add_assoc, add_comm (1 : Int)]

namespace Pool

variable {p : Pool} (h : lowest ≤ highest)
include h

theorem binsBetween_eq_mapM : p.binsBetween lowest highest arrays decimalsX decimalsY =
    (binsFrom lowest highest).mapM (BinLiquidity.of p.binStep decimalsX decimalsY arrays) := by
  rw [binsBetween, if_neg (not_lt.mpr h), forBins_eq_mapM, binsFrom]

theorem exists_binsBetween_iff :
    (∃ bins, p.binsBetween lowest highest arrays decimalsX decimalsY = .ok bins) ↔
      ∀ id, lowest ≤ id → id ≤ highest → Listable arrays p.binStep decimalsX decimalsY id := by
  rw [binsBetween_eq_mapM h]
  constructor
  case mp =>
    intro ⟨bins, hbins⟩ id hlow hhigh
    have hmem := mem_binsFrom.mpr ⟨hlow, hhigh⟩
    have ⟨l, _, hl⟩ := exists_of_mem_forall₂ (mapM_eq_ok_iff.mp hbins).flip hmem
    exact BinLiquidity.exists_of_iff.mp ⟨l, hl⟩
  case mpr =>
    intro hall
    refine exists_mapM fun id hid => BinLiquidity.exists_of_iff.mpr ?_
    have ⟨hlow, hhigh⟩ := mem_binsFrom.mp hid
    exact hall id hlow hhigh

-- A listing asks for an array when it comes to the first bin of it, and it comes there when it can
-- list all bins before.
theorem missing?_binsBetween_eq_some_iff :
    missing? (p.binsBetween lowest highest arrays decimalsX decimalsY) = some details ↔
      ∃ id, lowest ≤ id ∧ id ≤ highest ∧ details = naming (BinArray.indexOf id) ∧
        BinArray.find? arrays (BinArray.indexOf id) = none ∧
        ∀ j, lowest ≤ j → j < id → Listable arrays p.binStep decimalsX decimalsY j := by
  rw [binsBetween_eq_mapM h, missing?_mapM_eq_some_iff (pairwise_binsFrom lowest highest)]
  simp only [BinLiquidity.missing?_of_eq_some_iff, BinLiquidity.exists_of_iff, mem_binsFrom]
  constructor
  case mp =>
    intro ⟨id, ⟨hlow, hhigh⟩, ⟨hd, ha⟩, hbefore⟩
    exact ⟨id, hlow, hhigh, hd, ha, fun j hj hlt => hbefore j ⟨hj, (hlt.trans_le hhigh).le⟩ hlt⟩
  case mpr =>
    intro ⟨id, hlow, hhigh, hd, ha, hbefore⟩
    exact ⟨id, ⟨hlow, hhigh⟩, ⟨hd, ha⟩, fun j hj hlt => hbefore j hj.left hlt⟩

end Pool

end BinMarket
