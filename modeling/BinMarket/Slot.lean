import BinMarket.Fault

/-!
The two reward slots of a pool, and values kept once for each of them.
-/

namespace BinMarket

inductive Slot
  | one
  | two
deriving DecidableEq, Repr

def Slot.place : Slot → Nat
  | .one => 0
  | .two => 1

-- The entry of a slot. A decoded record may be short of some.
def Slot.entry (s : Slot) (entries : List Int) : Except Fault Int :=
  match entries[s.place]? with
  | some n => .ok n
  | none => .error .outOfRange

structure PerSlot (α : Type) where
  one : α
  two : α
deriving DecidableEq, Repr

namespace PerSlot

variable {α : Type}

def get (p : PerSlot α) : Slot → α
  | .one => p.one
  | .two => p.two

end PerSlot

end BinMarket
