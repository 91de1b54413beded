import PrefixCalculus.Evaluation
import PrefixCalculus.Term
set_option autoImplicit false

/-!
The value of a term, by recursion on the term and without a look at its flat form. Operands are
evaluated from left to right; of a branch only one side has a value; a loop rebinds its variable for
everything that is evaluated in its body, called functions included; a call has the value of the
callee's body in a frame of its own. The environment is never changed, so a value is all there is.
-/

namespace PrefixCalculus

variable [SpecialFunctions]

namespace Term

def joinRange (kind : Fold) (value : Int64 → Option Float) (range : LoopRange) : Option Float :=
  range.toList.foldlM (fun acc i => (value i).map (kind.join acc)) kind.identity

mutual

def valueBy (enter : FunctionId → List Float → Environment → Option Float) (frame : Frame) :
    Term → Environment → Option Float
  | literal x, _ => some x.value
  | ref address, env => some (env.value address)
  | arg index, _ => some ((frame[index.toNat]?).getD nan)
  | unary op operand, env => (operand.valueBy enter frame env).map op.apply
  | binary op lhs rhs, env => do
    let a ← lhs.valueBy enter frame env
    let b ← rhs.valueBy enter frame env
    return op.apply a b
  | branch condition yes no, env => do
    let c ← condition.valueBy enter frame env
    if c.isNaN then return nan
    else if c != 0.0 then yes.valueBy enter frame env
    else no.valueBy enter frame env
  | loop kind address lower upper body, env => do
    let lo ← lower.valueBy enter frame env
    let hi ← upper.valueBy enter frame env
    match LoopRange.ofBounds? lo hi with
    | none => return nan
    | some range =>
      joinRange kind (fun i => body.valueBy enter frame (env.setValue address (ofPosition i))) range
  | call f args, env => do
    let values ← valuesBy enter frame args env
    enter f values env

def valuesBy (enter : FunctionId → List Float → Environment → Option Float) (frame : Frame) :
    List Term → Environment → Option (List Float)
  | [], _ => some []
  | t :: ts, env => do
    let value ← t.valueBy enter frame env
    let values ← valuesBy enter frame ts env
    return value :: values

end

/-- The value of a call, calls inside calls at most `depth` deep. It is NaN for an unknown function,
for a wrong number of arguments and for a null body. A body that cannot be read as a term has the
value of a walk over it. -/
def callValue : Nat → FunctionId → List Float → Environment → Option Float
  | 0, _, _, _ => none
  | depth + 1, f, values, env =>
    match env.function? f with
    | none => some nan
    | some function =>
      if function.argc.toNat ≠ values.length ∨ function.body.isNull then some nan
      else
        match decode function.body with
        | .ok body => body.valueBy (callValue depth) values env
        | .error _ => (walkAt depth function.body.nodes values env 0).map Walk.value

def value (depth : Nat) (t : Term) (frame : Frame) (env : Environment) : Option Float :=
  t.valueBy (callValue depth) frame env

end Term

end PrefixCalculus
