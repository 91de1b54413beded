set_option autoImplicit false

/-!
A finite double taken apart into sign, whole mantissa and power of two, and the whole numbers next to
it. Everything here is exact: it is arithmetic on integers read off the bits. Main statement: the floor
is the greatest whole number at or below the value.
-/

namespace PrefixCalculus

/-- The value `mantissa * 2 ^ exponent`, with a sign that a zero keeps too. -/
structure FloatParts where
  negative : Bool
  mantissa : Nat
  exponent : Int
  deriving DecidableEq, Repr

def nan : Float := 0.0 / 0.0

def infinity : Float := 1.0 / 0.0

/-- True for a set sign bit, which negative zero has; NaN counts as unsigned. -/
def signBit (x : Float) : Bool :=
  !x.isNaN && x.toBits.toNat / Nat.pow 2 63 == 1

def copySign (magnitude sign : Float) : Float :=
  if signBit sign then -magnitude.abs else magnitude.abs

namespace FloatParts

def ofFloat? (x : Float) : Option FloatParts :=
  let bits := x.toBits.toNat
  let biased := bits / Nat.pow 2 52 % Nat.pow 2 11
  let fraction := bits % Nat.pow 2 52
  let negative := bits / Nat.pow 2 63 == 1
  if biased = 2047 then none
  else if biased = 0 then some ⟨negative, fraction, -1074⟩
  else some ⟨negative, Nat.pow 2 52 + fraction, Int.ofNat biased - 1075⟩

def signed (p : FloatParts) : Int :=
  if p.negative then -p.mantissa else p.mantissa

def numerator (p : FloatParts) : Int :=
  p.signed * (Nat.pow 2 p.exponent.toNat : Nat)

def denominator (p : FloatParts) : Nat :=
  Nat.pow 2 (-p.exponent).toNat

def floor (p : FloatParts) : Int :=
  p.numerator / p.denominator

def ceil (p : FloatParts) : Int :=
  -(-p.numerator / p.denominator)

def nearest (p : FloatParts) : Int :=
  let size := Int.ofNat ((2 * p.numerator.natAbs + p.denominator) / (2 * p.denominator))
  if p.negative then -size else size

theorem denominator_pos (p : FloatParts) : 0 < p.denominator :=
  Nat.pow_pos (by decide)

theorem le_floor_iff (p : FloatParts) (k : Int) : k ≤ p.floor ↔ k * p.denominator ≤ p.numerator :=
  Int.le_ediv_iff_mul_le (Int.natCast_pos.2 p.denominator_pos)

end FloatParts

/-- Move a double to a whole number; what has no fraction, infinities and NaN stay as they are. -/
def toWhole (choose : FloatParts → Int) (x : Float) : Float :=
  match FloatParts.ofFloat? x with
  | none => x
  | some p => if 0 ≤ p.exponent then x else copySign (Float.ofInt (choose p)) x

def floor (x : Float) : Float :=
  toWhole FloatParts.floor x

def ceil (x : Float) : Float :=
  toWhole FloatParts.ceil x

def round (x : Float) : Float :=
  toWhole FloatParts.nearest x

end PrefixCalculus
