import PrefixCalculus.Numeric.Special
set_option autoImplicit false

/-!
Factorials, binomial coefficients and the beta function. Arguments of the first two are rounded to
whole numbers first.
-/

namespace PrefixCalculus

def risingProduct : Nat → Nat → Float → Float
  | 0, _, acc => acc
  | left + 1, k, acc => risingProduct left (k + 1) (acc * Float.ofNat k)

def factorial (x : Float) : Float :=
  let n := round x
  if n.isNaN || n < 0.0 then nan
  else if n > 170.0 then infinity
  else risingProduct (n.toUInt32.toNat - 1) 2 1.0

/-- The first `i` steps of `C(n, k) = (n - k + 1) / 1 * (n - k + 2) / 2 * ...`. -/
def choosePartial (n k : Float) : Nat → Float → Float → Float
  | 0, _, acc => acc
  | steps + 1, i, acc =>
    if i <= k then choosePartial n k steps (i + 1.0) (acc * (n - k + i) / i) else acc

variable [SpecialFunctions]

def choose (n k : Float) : Float :=
  let n := round n
  let k := round k
  if n.isNaN || k.isNaN then nan
  else if k < 0.0 || n < 0.0 || k > n then 0.0
  else
    let k := lesserNumber k (n - k)
    if k <= 64.0 then round (choosePartial n k 64 1.0 1.0)
    else
      round (Float.exp
        (SpecialFunctions.logGamma (n + 1.0) - SpecialFunctions.logGamma (k + 1.0)
          - SpecialFunctions.logGamma (n - k + 1.0)))

/-- `gamma a * gamma b / gamma (a + b)`, zero where only the denominator has a pole. -/
def beta (a b : Float) : Float :=
  if a.isNaN || b.isNaN then nan
  else if a > 0.0 && b > 0.0 then
    Float.exp (SpecialFunctions.logGamma a + SpecialFunctions.logGamma b
      - SpecialFunctions.logGamma (a + b))
  else if isPole (a + b) && !isPole a && !isPole b then 0.0
  else gamma a * gamma b / gamma (a + b)

end PrefixCalculus
