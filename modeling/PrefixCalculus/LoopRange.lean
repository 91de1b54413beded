import PrefixCalculus.Numeric.Parts
set_option autoImplicit false

/-!
The whole numbers between two doubles, in the order in which a loop visits them: upwards when the
first bound is not above the second, else downwards. Positions are 64-bit integers and the number of
visits left is a 64-bit count; the last visit does not move the position, so neither leaves its type.
-/

namespace PrefixCalculus

/-- A loop under way: the next value, the last one, the direction and the number of values left. -/
structure LoopRange where
  next : Int64
  last : Int64
  step : Int64
  remaining : UInt64
  deriving DecidableEq, Repr

namespace LoopRange

def position? (k : Int) : Option Int64 :=
  if Int64.minValue.toInt ≤ k ∧ k ≤ Int64.maxValue.toInt then some (Int64.ofInt k) else none

def count? (distance : Int) : Option UInt64 :=
  if distance < 0 then some 0
  else if distance + 1 < UInt64.size then some (UInt64.ofNat (distance + 1).toNat)
  else none

def ascending? (first last : Int) : Option LoopRange := do
  let next ← position? first
  let stop ← position? last
  let remaining ← count? (last - first)
  return ⟨next, stop, 1, remaining⟩

def descending? (first last : Int) : Option LoopRange := do
  let next ← position? first
  let stop ← position? last
  let remaining ← count? (first - last)
  return ⟨next, stop, -1, remaining⟩

/-- The range of a loop; both bounds are rounded inwards. There is none when a bound is infinite or
NaN, or when a rounded bound is no position. -/
def ofBounds? (lower upper : Float) : Option LoopRange := do
  let lo ← FloatParts.ofFloat? lower
  let hi ← FloatParts.ofFloat? upper
  if lower <= upper then ascending? lo.ceil hi.floor else descending? lo.floor hi.ceil

def next? (r : LoopRange) : Option (Int64 × LoopRange) :=
  if r.remaining = 0 then none
  else
    let next := if r.next = r.last then r.next else r.next + r.step
    some (r.next, { r with next, remaining := r.remaining - 1 })

/-- The first values, at most `n`, behind those already taken in reverse; and the range after them. -/
def takeOnto : LoopRange → Nat → List Int64 → List Int64 × LoopRange
  | r, 0, taken => (taken.reverse, r)
  | r, n + 1, taken =>
    match r.next? with
    | none => (taken.reverse, r)
    | some (i, r) => takeOnto r n (i :: taken)

def take (r : LoopRange) (n : Nat) : List Int64 × LoopRange :=
  r.takeOnto n []

def toList (r : LoopRange) : List Int64 :=
  (r.takeOnto r.remaining.toNat []).1

theorem next?_eq_none_iff (r : LoopRange) : r.next? = none ↔ r.remaining = 0 := by
  unfold next?
  split <;> simp_all

end LoopRange

def ofPosition (i : Int64) : Float :=
  Float.ofInt i.toInt

end PrefixCalculus
