import BinMarket.Direction

/-!
The order in which a swap meets bins and arrays, and the nearest index on its way with a property.
-/

namespace BinMarket.Direction

variable {d : Direction} {i j k : Int} {P Q : Int → Prop} {o o₁ o₂ : Option Int}

theorem reaches_antisymm (h₁ : d.reaches i j) (h₂ : d.reaches j i) : i = j := by
  cases d <;> simp only [reaches] at * <;> omega

theorem reaches_after (d : Direction) (i : Int) : d.reaches i (d.after i) := by
  cases d <;> simp only [reaches, after] <;> omega

theorem reaches_after_iff : d.reaches (d.after i) j ↔ ¬d.reaches j i := by
  cases d <;> simp only [reaches, after] <;> omega

def opposite : Direction → Direction
  | xToY => yToX
  | yToX => xToY

theorem reaches_opposite_iff : d.opposite.reaches i j ↔ d.reaches j i := by
  cases d <;> rfl

-- What a search along the way may answer: the first index with the property at or after `i`, or
-- nothing when there is none.
def Nearest (d : Direction) (P : Int → Prop) (i : Int) : Option Int → Prop
  | none   => ∀ j, d.reaches i j → ¬P j
  | some j => d.reaches i j ∧ P j ∧ ∀ k, d.reaches i k → P k → d.reaches j k

theorem Nearest.unique (h₁ : d.Nearest P i o₁) (h₂ : d.Nearest P i o₂) : o₁ = o₂ := by
  cases o₁ <;> cases o₂
  case none.none => rfl
  case none.some => exact absurd h₂.right.left (h₁ _ h₂.left)
  case some.none => exact absurd h₁.right.left (h₂ _ h₁.left)
  case some.some =>
    have ⟨hr₁, hp₁, hm₁⟩ := h₁
    have ⟨hr₂, hp₂, hm₂⟩ := h₂
    rw [reaches_antisymm (hm₁ _ hr₂ hp₂) (hm₂ _ hr₁ hp₁)]

theorem Nearest.congr (h : d.Nearest P i o) (he : ∀ j, P j ↔ Q j) : d.Nearest Q i o := by
  have : P = Q := funext fun j => propext (he j)
  exact this ▸ h

-- An answer stands when more indexes come into question, all of them behind it.
theorem Nearest.or_left (h : d.Nearest P i (some j)) (hq : ∀ k, Q k → d.reaches j k) :
    d.Nearest (fun k => P k ∨ Q k) i (some j) := by
  refine ⟨h.left, .inl h.right.left, fun k hr hk => ?_⟩
  cases hk
  case inl hp => exact h.right.right k hr hp
  case inr hk => exact hq k hk

-- A stretch without the first property can be passed over.
theorem Nearest.or_right (h : d.Nearest Q k o) (hr : d.reaches i k)
    (hp : ∀ j, d.reaches i j → ¬P j) (hq : ∀ j, d.reaches i j → Q j → d.reaches k j) :
    d.Nearest (fun j => P j ∨ Q j) i o := by
  cases o
  case none =>
    intro j hj hk
    cases hk
    case inl hk => exact hp j hj hk
    case inr hk => exact h j (hq j hj hk) hk
  case some j =>
    refine ⟨reaches_trans hr h.left, .inr h.right.left, fun l hl hk => ?_⟩
    cases hk
    case inl hk => exact absurd hk (hp l hl)
    case inr hk => exact h.right.right l (hq l hl hk) hk

end BinMarket.Direction
