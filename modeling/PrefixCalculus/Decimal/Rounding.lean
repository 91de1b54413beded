import PrefixCalculus.Numeric.Parts
set_option autoImplicit false

/-!
Decimal digits of a positive double, in exact arithmetic. The value is a quotient of two whole
numbers; a decimal of so many digits is a whole multiple of a power of ten. `shortest` takes the
coarsest such grid on which one of the value's two neighbours still reads back as the double, and of
two such neighbours the nearer. `significant` rounds to a given number of digits.
-/

namespace PrefixCalculus

/-- The positive number `mantissa * 10 ^ exponent`. -/
structure Decimal where
  mantissa : Nat
  exponent : Int
  deriving DecidableEq, Repr

namespace Decimal

def digitCount (n : Nat) : Nat :=
  (Nat.toDigits 10 n).length

def leadingExponent (num den : Nat) : Int :=
  if den ≤ num then Int.ofNat (digitCount (num / den)) - 1
  else -Int.ofNat (digitCount ((den - 1) / num))

/-- The doubles' neighbourhood of a value: the reals between `low / den` and `high / den` read back
as `value / den`, and so do the ends when `closed`. -/
structure Neighbourhood where
  low : Nat
  value : Nat
  high : Nat
  den : Nat
  closed : Bool
  deriving Repr

namespace Neighbourhood

/-- Half-way to the doubles below and above. The one below is nearer where the exponent changes. The
double with an even mantissa takes the half-way points. -/
def ofParts (p : FloatParts) : Neighbourhood :=
  let unit := Nat.pow 2 (p.exponent - 2).toNat
  let den := Nat.pow 2 (2 - p.exponent).toNat
  let below := if p.mantissa = Nat.pow 2 52 ∧ -1074 < p.exponent then 1 else 2
  { low := (4 * p.mantissa - below) * unit
    value := 4 * p.mantissa * unit
    high := (4 * p.mantissa + 2) * unit
    den
    closed := p.mantissa % 2 == 0 }

def inUnits (n : Neighbourhood) (k : Int) : Neighbourhood :=
  let up := Nat.pow 10 (-k).toNat
  { n with
    low := n.low * up, value := n.value * up, high := n.high * up
    den := n.den * Nat.pow 10 k.toNat }

def holds (n : Neighbourhood) (d : Nat) : Bool :=
  if n.closed then n.low ≤ d * n.den && d * n.den ≤ n.high
  else n.low < d * n.den && d * n.den < n.high

/-- Of the whole numbers next to the value, the one that reads back; of two the nearer, the upper
one on a tie. -/
def whole? (n : Neighbourhood) : Option Nat :=
  let below := n.value / n.den
  let above := below + 1
  if n.holds below then
    if n.holds above && above * n.den - n.value ≤ n.value - below * n.den then some above
    else some below
  else if n.holds above then some above
  else none

end Neighbourhood

def trim : Nat → Decimal → Decimal
  | 0, d => d
  | steps + 1, d =>
    if d.mantissa % 10 = 0 then trim steps ⟨d.mantissa / 10, d.exponent + 1⟩ else d

def shortestFrom (n : Neighbourhood) (leading : Int) : Nat → Nat → Decimal
  | 0, count =>
    let k := leading - Int.ofNat count + 1
    let n := n.inUnits k
    ⟨n.value / n.den, k⟩
  | left + 1, count =>
    let k := leading - Int.ofNat count + 1
    match (n.inUnits k).whole? with
    | some d => trim 1 ⟨d, k⟩
    | none => shortestFrom n leading left (count + 1)

/-- The fewest digits that read back as the double, and of those the nearest. -/
def shortest (p : FloatParts) : Decimal :=
  let n := Neighbourhood.ofParts p
  shortestFrom n (leadingExponent n.value n.den) 17 1

def nearestEven (num den : Nat) : Nat :=
  let below := num / den
  let rest := 2 * (num % den)
  if rest < den then below
  else if den < rest then below + 1
  else below + below % 2

def significant (count : Nat) (p : FloatParts) : Decimal :=
  let n := Neighbourhood.ofParts p
  let k := leadingExponent n.value n.den - Int.ofNat count + 1
  let n := n.inUnits k
  let d := nearestEven n.value n.den
  if d = Nat.pow 10 count then ⟨Nat.pow 10 (count - 1), k + 1⟩ else ⟨d, k⟩

end Decimal

end PrefixCalculus
