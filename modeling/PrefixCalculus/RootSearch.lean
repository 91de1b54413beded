import PrefixCalculus.Derivative
set_option autoImplicit false

/-!
Search of a root by tangents. The variable is bound to one iterate after the other and gets its value
back. The search gives up with NaN when the function or its slope is NaN, when the slope is zero, when
an iterate leaves the bounds, and when the iterations are used up.
-/

namespace PrefixCalculus

structure SearchSettings where
  /-- The last step may be at most this large. -/
  stepTolerance : Float
  /-- The value at the root may be at most this large. -/
  valueTolerance : Float
  maxIterations : UInt32
  lowerBound : Float
  upperBound : Float

namespace SearchSettings

def default : SearchSettings where
  stepTolerance := 1e-10
  valueTolerance := 1e-10
  maxIterations := 64
  lowerBound := -infinity
  upperBound := infinity

def accepts (s : SearchSettings) (step value : Float) : Bool :=
  step.abs <= s.stepTolerance && value.abs <= s.valueTolerance

def bounds (s : SearchSettings) (x : Float) : Bool :=
  s.lowerBound <= x && x <= s.upperBound

end SearchSettings

variable [SpecialFunctions]

namespace RootSearch

/-- The value of the function at an iterate, or the result of the search that ends there. Every walk is
at most `depth` operands deep. -/
def visit (depth : Nat) (f : Expression) (address : Address) (s : SearchSettings) (x step : Float)
    (env : Environment) : Option (Except Float Float × Environment) := do
  let (fx, env) ← f.evalWithin depth (env.setValue address x)
  if fx.isNaN then return (.error nan, env)
  else if s.accepts step fx then return (.error x, env)
  else return (.ok fx, env)

/-- The next iterate and the step to it, or the result of the search that goes no further. -/
def advance (depth : Nat) (slope : Expression) (s : SearchSettings) (x fx : Float)
    (env : Environment) : Option (Except Float (Float × Float) × Environment) := do
  let (dfx, env) ← slope.evalWithin depth env
  if dfx.isNaN || dfx == 0.0 then return (.error nan, env)
  else
    let step := fx / dfx
    let x := x - step
    if s.bounds x then return (.ok (x, step), env) else return (.error nan, env)

def iterate (depth : Nat) (f slope : Expression) (address : Address) (s : SearchSettings) :
    Nat → Float → Float → Environment → Option (Float × Environment)
  | 0, x, step, env => do
    match ← visit depth f address s x step env with
    | (.error result, env) => return (result, env)
    | (.ok _, env) => return (nan, env)
  | left + 1, x, step, env => do
    match ← visit depth f address s x step env with
    | (.error result, env) => return (result, env)
    | (.ok fx, env) =>
      match ← advance depth slope s x fx env with
      | (.error result, env) => return (result, env)
      | (.ok (x, step), env) => iterate depth f slope address s left x step env

end RootSearch

namespace Expression

/-- A root of the expression in the variable, by a given derivative, if walks of the depth give one. -/
def rootByWithin (depth : Nat) (f slope : Expression) (address : Address) (start : Float)
    (s : SearchSettings) (env : Environment) : Option (Float × Environment) :=
  if f.isNull || slope.isNull then some (nan, env)
  else
    env.binding address
      (RootSearch.iterate depth f slope address s s.maxIterations.toNat start infinity)

def rootBy (f slope : Expression) (address : Address) (start : Float) (s : SearchSettings)
    (env : Environment) : Option (Float × Environment) :=
  f.rootByWithin walkDepth slope address start s env

def root (f : Expression) (address : Address) (start : Float) (s : SearchSettings)
    (env : Environment) : Option (Float × Environment) := do
  let slope ← f.derivativeOrNull address env unrollLimit
  f.rootBy slope address start s env

end Expression

end PrefixCalculus
