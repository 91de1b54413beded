import PrefixCalculus.Numeric.Special
set_option autoImplicit false

/-!
The first and second derivatives of digamma: reflection left of zero, then upward recurrence to ten,
then an asymptotic series.
-/

namespace PrefixCalculus

namespace Polygamma

def threshold : Float := 10.0

/-- Add `term` along `x, x + 1, ...` while below the threshold; at most `steps` terms. -/
def climb (term : Float → Float) : Nat → Float → Float → Float × Float
  | 0, x, acc => (x, acc)
  | steps + 1, x, acc =>
    if x < threshold then climb term steps (x + 1.0) (acc + term x) else (x, acc)

def trigammaSeries (x : Float) : Float :=
  let inv := 1.0 / x
  let inv2 := inv * inv
  inv + 0.5 * inv2 + inv * inv2
    * (1.0 / 6.0 + inv2 * (-1.0 / 30.0 + inv2 * (1.0 / 42.0 + inv2 * (-1.0 / 30.0 + inv2 * 5.0 / 66.0))))

def tetragammaSeries (x : Float) : Float :=
  let inv := 1.0 / x
  let inv2 := inv * inv
  let lead := -inv2
  lead - inv2 * inv - inv2 * inv2
    * (0.5 + inv2 * (-1.0 / 6.0 + inv2 * (1.0 / 6.0 + inv2 * (-3.0 / 10.0 + inv2 * 5.0 / 6.0))))

def trigamma (x : Float) : Float :=
  if x == infinity then 0.0
  else
    let (x, acc) := climb (fun x => 1.0 / (x * x)) 11 x 0.0
    acc + trigammaSeries x

def tetragamma (x : Float) : Float :=
  if x == infinity then 0.0
  else
    let (x, acc) := climb (fun x => -(2.0 / (x * x * x))) 11 x 0.0
    acc + tetragammaSeries x

end Polygamma

def trigamma (x : Float) : Float :=
  if x.isNaN || isPole x then nan
  else if x < 0.0 then
    let s := Float.sin (pi * x)
    pi * pi / (s * s) - Polygamma.trigamma (1.0 - x)
  else Polygamma.trigamma x

def tetragamma (x : Float) : Float :=
  if x.isNaN || isPole x then nan
  else if x < 0.0 then
    let s := Float.sin (pi * x)
    let c := Float.cos (pi * x)
    Polygamma.tetragamma (1.0 - x) - 2.0 * pi * pi * pi * c / (s * s * s)
  else Polygamma.tetragamma x

end PrefixCalculus
