import PrefixCalculus.Numeric.Elementary
set_option autoImplicit false

/-!
The gamma function, its logarithm and the logarithmic derivative, the error function and what rests on
it. How these are computed is left open; here are the poles, which give NaN, and the branches that are
taken around them.
-/

namespace PrefixCalculus

/-- Functions that come with the system. -/
class SpecialFunctions where
  gamma : Float → Float
  logGamma : Float → Float
  digamma : Float → Float
  erf : Float → Float
  erfc : Float → Float

def pi : Float := 3.141592653589793

def euler : Float := 2.718281828459045

def isPole (x : Float) : Bool :=
  x <= 0.0 && x == floor x

variable [SpecialFunctions]

def gamma (x : Float) : Float :=
  if x.isNaN || isPole x then nan else SpecialFunctions.gamma x

/-- `log (gamma x)`, NaN where gamma is negative. -/
def logGamma (x : Float) : Float :=
  if x.isNaN || isPole x then nan
  else if x > 0.0 then SpecialFunctions.logGamma x
  else Float.log (gamma x)

def digamma (x : Float) : Float :=
  if x.isNaN || isPole x then nan else SpecialFunctions.digamma x

def normalDensity (x : Float) : Float :=
  0.3989422804014327 * Float.exp (-0.5 * x * x)

def normalDistribution (x : Float) : Float :=
  0.5 * SpecialFunctions.erfc (-x * 0.7071067811865476)

end PrefixCalculus
