import PrefixCalculus.Defect
import PrefixCalculus.Node
set_option autoImplicit false

/-!
Why an expression has no derivative here, and how it is told. Any of these ends the whole
differentiation.
-/

namespace PrefixCalculus

inductive DerivativeError
  | nonDifferentiable (op : Operator)
  /-- The bounds of a loop are not numbers. -/
  | dynamicBounds
  /-- A loop is too long to be written out. -/
  | unrollLimit (iterations limit : UInt64)
  | dependentModulus
  | dependentBase
  /-- A function is called while its own derivative is being taken. -/
  | recursiveCall (f : FunctionId)
  | unknownFunction (f : FunctionId)
  | arityMismatch (f : FunctionId) (expected found : UInt32)
  | malformed (defect : Defect)
  deriving DecidableEq, Repr

def DerivativeError.message : DerivativeError → String
  | nonDifferentiable op => "Opcode `" ++ op.name ++ "` has no closed-form derivative."
  | dynamicBounds => "Loop bounds must reduce to literal constants to unroll the derivative."
  | unrollLimit iterations limit =>
    s!"Loop of {iterations} iterations exceeds the unroll limit of {limit} iterations."
  | dependentModulus => "The modulus of `mod` depends on the differentiation variable."
  | dependentBase => "The base of `logbase` depends on the differentiation variable."
  | recursiveCall f =>
    "Function `" ++ f.text ++ "` is already on the differentiation call stack (recursive call)."
  | unknownFunction f => "Call refers to function `" ++ f.text ++ "` which is not registered."
  | arityMismatch f expected found =>
    "Function `" ++ f.text
      ++ s!"` declares {expected} argument(s) but the call site passes {found}."
  | malformed defect => "Cannot differentiate a malformed expression: " ++ defect.message

end PrefixCalculus
