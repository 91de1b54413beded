import PrefixCalculus.Numeric.Special
set_option autoImplicit false

/-!
The zeta function on the real line: an accelerated alternating sum right of one half, the functional
equation left of it. The pole gives NaN.
-/

namespace PrefixCalculus

namespace Zeta

def terms : Nat := 40

def order : Float := Float.ofNat terms

def weightsFrom : Nat → Nat → Float → Float → List Float
  | 0, _, _, _ => []
  | steps + 1, i, term, partialSum =>
    let k := Float.ofNat i
    let term := term * (4.0 * (order + k - 1.0) * (order - k + 1.0) / (2.0 * k * (2.0 * k - 1.0)))
    let partialSum := partialSum + term
    order * partialSum :: weightsFrom steps (i + 1) term partialSum

def weights : List Float :=
  let term := 1.0 / order
  order * term :: weightsFrom terms 1 term term

/-- Alternating sum of the weights' distances from the last, each over a power of its place. -/
def alternating (s last : Float) : List Float → Nat → Float → Float
  | [], _, acc => acc
  | d :: rest, k, acc =>
    let side := if k % 2 == 0 then 1.0 else -1.0
    alternating s last rest (k + 1) (acc + side * (d - last) / Float.pow (Float.ofNat (k + 1)) s)

def right (s : Float) : Float :=
  if s.isNaN || s == 1.0 then nan
  else if s == infinity then 1.0
  else
    let last := weights.getLastD 1.0
    let eta := -(alternating s last (weights.take terms) 0 0.0) / last
    eta / (1.0 - Float.pow 2.0 (1.0 - s))

end Zeta

def zeta [SpecialFunctions] (s : Float) : Float :=
  if s == 0.0 then -0.5
  else if s < 0.5 then
    let reflected := 1.0 - s
    Float.pow 2.0 s * Float.pow pi (s - 1.0) * Float.sin (0.5 * pi * s) * gamma reflected
      * Zeta.right reflected
  else Zeta.right s

end PrefixCalculus
