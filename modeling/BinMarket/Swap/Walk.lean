import BinMarket.Bitmap.Locator
import BinMarket.Swap.Fill

/-!
The walk of a swap through the bins. It fills bin after bin at rising cost, jumps over arrays that
hold nothing, and ends when the input is used up or the arrays are. Every round moves on along the
way, and the bitmaps end somewhere, so the walk does.
-/

namespace BinMarket

-- Everything a walk reads and never changes.
structure Route where
  direction : Direction
  pool      : Pool
  extension : Option Extension
  arrays    : List BinArray
  tiers     : List Tier := pool.tiers extension
  tiers_eq  : tiers = pool.tiers extension := by rfl

namespace Route

def of (p : Pool) (e : Option Extension) (arrays : List BinArray) (d : Direction) : Route where
  direction := d
  pool      := p
  extension := e
  arrays    := arrays

def nextArray (r : Route) (active : Int) : Option Int := Locator.next? r.direction r.tiers active

def supplied? (r : Route) (index : Int) : Option BinArray := BinArray.find? r.arrays index

-- How many bins lie between a bin and the end of the widest bitmap, both included.
def remaining (r : Route) (active : Int) : Nat :=
  match r.direction with
  | .xToY => (active - BinArray.lowest Extension.lowest + 1).toNat
  | .yToX => (BinArray.highest Extension.highest - active + 1).toNat

end Route

structure FilledBin where
  id   : Int
  bin  : Bin
  fill : Fill
deriving DecidableEq, Repr

-- Where a walk stands. The latest bins and arrays come first.
structure Walk where
  active  : Int
  left    : Int
  fee     : DynamicFee
  filled  : List FilledBin := []
  touched : List BinArray := []

namespace Walk

def start (p : Pool) (amount now : Int) : Walk where
  active := p.activeId
  left   := amount
  fee    := (DynamicFee.ofPool p).refresh p.activeId now

-- Notes an array the first time that the walk comes to it.
def touch (w : Walk) (a : BinArray) : Walk :=
  if w.touched.any (·.index == a.index) then w else { w with touched := a :: w.touched }

-- Notes what a bin did, unless it did nothing.
def record (w : Walk) (bin : Bin) (fill : Fill) : Walk :=
  if fill.isEmpty then w
  else { w with left := w.left - fill.amountIn, filled := ⟨w.active, bin, fill⟩ :: w.filled }

-- Fills the active bin and goes on to the next one while some input is left.
def visit (r : Route) (w : Walk) (bin : Bin) : Except Fault Walk := do
  let fill ← bin.fill w.fee w.left r.direction
  let w := w.record bin fill
  return if 0 < w.left then { w with active := r.direction.after w.active } else w

-- One round: finds the array to work in, and fills the active bin or else jumps to that array.
def step (r : Route) (w : Walk) : Except Fault Walk :=
  match r.nextArray w.active with
  | none => .error (.exhausted w.left w.active)
  | some index =>
    match r.supplied? index with
    | none => .error (.arrayNotSupplied index w.left w.active)
    | some array =>
      let w := { w.touch array with fee := w.fee.track w.active }
      if BinArray.Holds index w.active then do
        visit r w (← array.bin w.active)
      else .ok { w with active := BinArray.entry index r.direction }

theorem active_touch (w : Walk) (a : BinArray) : (w.touch a).active = w.active := by
  unfold touch; split <;> rfl

theorem active_record (w : Walk) (b : Bin) (f : Fill) : (w.record b f).active = w.active := by
  unfold record; split <;> rfl

theorem active_visit {r : Route} {w w' : Walk} {b : Bin} (h : visit r w b = .ok w') :
    0 < w'.left → w'.active = r.direction.after w.active := by
  simp only [visit] at h
  cases hf : b.fill w.fee w.left r.direction with
  | error e => rw [hf] at h; contradiction
  | ok f =>
    rw [hf] at h
    have h : (if 0 < (w.record b f).left then
        { w.record b f with active := r.direction.after (w.record b f).active }
      else w.record b f) = w' := Except.ok.inj h
    intro hl
    split at h
    · subst h; simp [active_record]
    · subst h; contradiction

-- A round that leaves some input has moved on, and it started inside the bitmaps.
theorem remaining_step {r : Route} {w w' : Walk} (h : step r w = .ok w') (hl : 0 < w'.left) :
    r.remaining w'.active < r.remaining w.active := by
  unfold step at h
  split at h
  · contradiction
  · rename_i index hn
    split at h
    · contradiction
    · rename_i array _
      have hr := Locator.reaches_of_next? hn
      obtain ⟨t, ht, hc⟩ := Locator.covers_of_next? hn
      rw [r.tiers_eq] at ht
      have ⟨hb₁, hb₂⟩ := Pool.tier_bounds ht
      have ⟨hc₁, hc₂⟩ := hc
      simp only [BinArray.indexOf, Extension.lowest, Extension.highest] at *
      split at h
      · cases hb : array.bin (w.touch array).active with
        | error e => simp only [hb] at h; contradiction
        | ok b =>
          simp only [hb] at h
          have ha := active_visit h hl
          simp only [active_touch] at ha
          rw [ha]
          cases hd : r.direction <;>
            simp only [Route.remaining, hd, Direction.after, BinArray.lowest, BinArray.highest,
              Extension.lowest, Extension.highest] <;> omega
      · rename_i hh
        cases h
        simp only [active_touch, BinArray.holds_iff, BinArray.indexOf] at hh ⊢
        cases hd : r.direction <;>
          simp only [Route.remaining, hd, Direction.reaches, BinArray.entry, BinArray.lowest,
            BinArray.highest, Extension.lowest, Extension.highest] at hr ⊢ <;> omega

def run (r : Route) (w : Walk) : Except Fault Walk :=
  if 0 < w.left then
    match _h : step r w with
    | .error f => .error f
    | .ok w' => run r w'
  else .ok w
termination_by if 0 < w.left then r.remaining w.active + 1 else 0
decreasing_by
  rename_i hl
  rw [if_pos hl]
  split
  · rename_i hl'
    have := remaining_step _h hl'
    omega
  · omega

end Walk

end BinMarket
