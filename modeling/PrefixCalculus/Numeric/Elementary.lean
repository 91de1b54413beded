import PrefixCalculus.Numeric.Parts
set_option autoImplicit false

/-!
Elementary functions that the operators need beyond those of the processor: truth values, signs and
the inverse hyperbolic functions, which are written through the logarithm of `1 + x`.
-/

namespace PrefixCalculus

/-- Any number but zero counts as true; NaN does too. -/
def truth (x : Float) : Float :=
  if x != 0.0 then 1.0 else 0.0

def ofBool (b : Bool) : Float :=
  if b then 1.0 else 0.0

def sign (x : Float) : Float :=
  if x.isNaN then nan
  else if x > 0.0 then 1.0
  else if x < 0.0 then -1.0
  else 0.0

def flooredMod (a b : Float) : Float :=
  a - b * floor (a / b)

def larger (a b : Float) : Float :=
  if a.isNaN || b.isNaN then nan else if a >= b then a else b

def smaller (a b : Float) : Float :=
  if a.isNaN || b.isNaN then nan else if a <= b then a else b

/-- The lesser operand; a number wins over NaN. -/
def lesserNumber (a b : Float) : Float :=
  if a.isNaN then b else if b.isNaN then a else if a <= b then a else b

/-- `log (1 + x)`, accurate near zero: the rounding of `1 + x` is divided out again. -/
def logOnePlus (x : Float) : Float :=
  let y := 1.0 + x
  if y == 1.0 then x
  else if y == infinity then y
  else Float.log y * (x / (y - 1.0))

def arsinh (x : Float) : Float :=
  let size := x.abs
  let inverse := 1.0 / size
  let root := Float.sqrt (1.0 + inverse * inverse)
  copySign (logOnePlus (size + size / (root + inverse))) x

def arcosh (x : Float) : Float :=
  if x < 1.0 then nan
  else Float.log (x + Float.sqrt (x - 1.0) * Float.sqrt (x + 1.0))

def artanh (x : Float) : Float :=
  0.5 * logOnePlus (2.0 * x / (1.0 - x))

end PrefixCalculus
