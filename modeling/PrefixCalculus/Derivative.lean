import PrefixCalculus.Dependence
import PrefixCalculus.Derivative.Rules
import PrefixCalculus.Derivative.Slicing
import PrefixCalculus.Evaluation
import PrefixCalculus.Substitution
set_option autoImplicit false

/-!
Symbolic differentiation of flat expressions. Every head has its rule; a loop is written out once per
value of its variable, after the calls that read the variable are replaced by their bodies; a call
follows the chain rule, with the functions under way on a stack that refuses recursion. The result is
complete or an error. Like evaluation, the descent has a depth, and no outcome beyond it.
-/

namespace PrefixCalculus

variable [SpecialFunctions]

/-- What a differentiation refers to: the functions, and the longest loop that is written out. -/
structure Derivation where
  env : Environment
  limit : UInt64

abbrev Descent :=
  List FunctionId → Target → Array Node → Nat → Attempt (Expression × Nat)

namespace Derivation

def orDefect {α : Type} : Except Defect α → Attempt α
  | .ok a => pure a
  | .error d => throw (.malformed d)

def ofExcept {α : Type} (r : Except DerivativeError α) : Attempt α :=
  ExceptT.mk (some r)

def operandAt (cut : Slicing) (nodes : Array Node) (pos : Nat) : Attempt (Expression × Nat) := do
  let stop ← orDefect (operandStop nodes pos)
  let e ← cut nodes pos stop
  return (e, stop)

def whole (go : Descent) (stack : List FunctionId) (target : Target) (e : Expression) :
    Attempt Expression := do
  let (d, _) ← go stack target e.nodes 0
  return d

/-! Operators -/

def unary (cut : Slicing) (go : Descent) (stack : List FunctionId) (target : Target)
    (nodes : Array Node) (pos : Nat) (op : UnaryOp) : Attempt (Expression × Nat) := do
  let (u, stop) ← operandAt cut nodes (pos + 1)
  let (du, _) ← go stack target nodes (pos + 1)
  if Folding.isZero du then return (Folding.zero, stop)
  else
    match op.derivative? u du with
    | some d => return (d, stop)
    | none => throw (.nonDifferentiable (.unary op))

def asExponential (base exponent : Expression) : Expression :=
  .unary .exp (.binary .mul (.unary .ln base) exponent)

def binary (cut : Slicing) (ctx : Derivation) (go : Descent) (stack : List FunctionId)
    (target : Target) (nodes : Array Node) (pos : Nat) (op : BinaryOp) :
    Attempt (Expression × Nat) := do
  let (a, middle) ← operandAt cut nodes (pos + 1)
  let (b, stop) ← operandAt cut nodes middle
  let left : Attempt Expression := do
    let (da, _) ← go stack target nodes (pos + 1)
    return da
  let depends := b.dependsOn target ctx.env
  match op with
  | .power =>
    if depends then return (← whole go stack target (asExponential a b), stop)
    else return (Folding.powerRule a b (← left), stop)
  | .mod => if depends then throw .dependentModulus else return (← left, stop)
  | .logBase =>
    if depends then throw .dependentBase
    else return (Folding.logBaseRule a b (← left), stop)
  | op =>
    let da ← left
    let (db, _) ← go stack target nodes middle
    match op.derivative? a b da db with
    | some d => return (d, stop)
    | none => throw (.nonDifferentiable (.binary op))

def branch (cut : Slicing) (go : Descent) (stack : List FunctionId) (target : Target)
    (nodes : Array Node) (pos : Nat) : Attempt (Expression × Nat) := do
  let (condition, stop) ← operandAt cut nodes (pos + 1)
  let yes ← orDefect (Span.at? nodes stop)
  let no ← orDefect (Span.at? nodes yes.stop)
  let (dYes, _) ← go stack target nodes yes.bodyStart
  let (dNo, _) ← go stack target nodes no.bodyStart
  if Folding.isZero dYes && Folding.isZero dNo then return (Folding.zero, no.stop)
  else return (.branch condition dYes dNo, no.stop)

/-! Loops -/

def readerBody? (env : Environment) (address : Address) (f : FunctionId) (argc : Nat) :
    Option Expression := do
  let function ← env.function? f
  if function.argc.toNat = argc && function.body.dependsOnVar address env then function.body
  else none

def expanding (env : Environment) (address : Address) : Replacement :=
  { Replacement.keep with
    call := fun f args =>
      (readerBody? env address f args.length).map fun body => body.instantiate args }

/-- Replace the calls that read the variable, one level in each pass. Without recursion there are no
more levels than functions; a call that is left after that is recursive. -/
def expandReaders (env : Environment) (address : Address) :
    Nat → Option FunctionId → Expression → Except DerivativeError Expression
  | 0, some f, _ => .error (.recursiveCall f)
  | 0, none, body => .ok body
  | passes + 1, _, body =>
    match body.rebuild (expanding env address) with
    | .error d => .error (.malformed d)
    | .ok (inlined, none) => .ok inlined
    | .ok (inlined, some f) => expandReaders env address passes (some f) inlined

def rangeWithin (ctx : Derivation) (lower upper : Expression) :
    Except DerivativeError LoopRange :=
  if !lower.isClosed || !upper.isClosed then .error .dynamicBounds
  else
    let lo := lower.closedValue
    let hi := upper.closedValue
    if !lo.isFinite || !hi.isFinite then .error .dynamicBounds
    else
      match LoopRange.ofBounds? lo hi with
      | none => .error (.unrollLimit (UInt64.ofNat (UInt64.size - 1)) ctx.limit)
      | some range =>
        if range.remaining > ctx.limit then .error (.unrollLimit range.remaining ctx.limit)
        else .ok range

def sumTerms (diff : Expression → Attempt Expression) :
    List Expression → Expression → Attempt Expression
  | [], acc => pure acc
  | term :: rest, acc => do
    let d ← diff term
    sumTerms diff rest (Folding.add acc d)

def productOf (factors : List Expression) : Expression :=
  factors.foldl Folding.mul Folding.one

def sumProducts (diff : Expression → Attempt Expression) :
    List Expression → List Expression → Expression → Attempt Expression
  | _, [], acc => pure acc
  | before, factor :: after, acc => do
    let d ← diff factor
    let acc :=
      if Folding.isZero d then acc
      else Folding.add acc (Folding.mul d (productOf (before ++ after)))
    sumProducts diff (before ++ [factor]) after acc

/-- The body is taken out before the bounds are looked at. -/
def loop (cut : Slicing) (ctx : Derivation) (go : Descent) (stack : List FunctionId)
    (target : Target) (nodes : Array Node) (pos : Nat) (kind : Fold) : Attempt (Expression × Nat) :=
  match nodes[pos + 1]? with
  | some (.ref address) => do
    let (lower, pos) ← operandAt cut nodes (pos + 2)
    let (upper, pos) ← operandAt cut nodes pos
    let span ← orDefect (Span.at? nodes pos)
    let body ← cut nodes span.bodyStart span.bodyStop
    let range ← ofExcept (rangeWithin ctx lower upper)
    let body ← ofExcept
      (expandReaders ctx.env address (ctx.env.functionCount + 1) none body)
    let terms := range.toList.map fun i => body.replaceVar address (.const (ofPosition i))
    let diff := whole go stack target
    match kind with
    | .sum => return (← sumTerms diff terms Folding.zero, span.stop)
    | .product => return (← sumProducts diff [] terms Folding.zero, span.stop)
  | _ => throw (.malformed (.variableExpected pos))

/-! Calls -/

def arguments (cut : Slicing) (go : Descent) (stack : List FunctionId) (target : Target)
    (nodes : Array Node) : Nat → Nat → Attempt (List (Expression × Expression) × Nat)
  | 0, pos => pure ([], pos)
  | count + 1, pos => do
    let (arg, stop) ← operandAt cut nodes pos
    let (d, _) ← go stack target nodes pos
    let (rest, stop) ← arguments cut go stack target nodes count stop
    return ((arg, d) :: rest, stop)

def addPartials (go : Descent) (stack : List FunctionId) (body : Expression)
    (args : List Expression) : Nat → List Expression → Expression → Attempt Expression
  | _, [], acc => pure acc
  | index, d :: rest, acc => do
    if Folding.isZero d then addPartials go stack body args (index + 1) rest acc
    else
      let slope ← whole go stack (.arg (UInt32.ofNat index)) body
      addPartials go stack body args (index + 1) rest
        (Folding.add acc (Folding.mul d (slope.instantiate args)))

/-- The derivative of a call: by the target itself where the body may refer to it, and by every
parameter. -/
def chainRule (go : Descent) (stack : List FunctionId) (target : Target) (body : Expression)
    (args derivatives : List Expression) : Attempt Expression := do
  let direct ←
    match target with
    | .var _ => do
      let d ← whole go stack target body
      pure (if Folding.isZero d then Folding.zero
        else Folding.add Folding.zero (d.instantiate args))
    | .arg _ => pure Folding.zero
  addPartials go stack body args 0 derivatives direct

def call (cut : Slicing) (ctx : Derivation) (go : Descent) (stack : List FunctionId)
    (target : Target) (nodes : Array Node) (pos : Nat) (f : FunctionId) (argc : UInt32) :
    Attempt (Expression × Nat) :=
  match ctx.env.function? f with
  | none => throw (.unknownFunction f)
  | some function => do
    if function.argc != argc then throw (.arityMismatch f function.argc argc)
    else if stack.contains f then throw (.recursiveCall f)
    else
      let (args, stop) ← arguments cut go stack target nodes argc.toNat (pos + 1)
      let d ← chainRule go (f :: stack) target function.body (args.map Prod.fst) (args.map Prod.snd)
      return (d, stop)

/-- Differentiate the operand at a position, and give the position after it. All nodes are taken out of
buffers in the given way. -/
def descendBy (cut : Slicing) (ctx : Derivation) : Nat → Descent
  | 0, _, _, _, _ => ExceptT.mk none
  | depth + 1, stack, target, nodes, pos =>
    match nodes[pos]? with
    | none => throw (.malformed (.truncated pos))
    | some (.literal _) => pure (Folding.zero, pos + 1)
    | some (.ref a) =>
      pure (if target.isNode (.ref a) then Folding.one else Folding.zero, pos + 1)
    | some (.arg i) =>
      pure (if target.isNode (.arg i) then Folding.one else Folding.zero, pos + 1)
    | some (.opening _) | some (.closing _) => throw (.malformed (.strayMarker pos))
    | some (.call f argc) => call cut ctx (descendBy cut ctx depth) stack target nodes pos f argc
    | some (.op .branch) => branch cut (descendBy cut ctx depth) stack target nodes pos
    | some (.op (.fold kind)) => loop cut ctx (descendBy cut ctx depth) stack target nodes pos kind
    | some (.op (.unary op)) =>
      if op.isNonDifferentiable then throw (.nonDifferentiable (.unary op))
      else if op.isPiecewiseConstant then do
        return (Folding.zero, ← orDefect (operandStop nodes pos))
      else unary cut (descendBy cut ctx depth) stack target nodes pos op
    | some (.op (.binary op)) =>
      if op.isPiecewiseConstant then do
        return (Folding.zero, ← orDefect (operandStop nodes pos))
      else binary cut ctx (descendBy cut ctx depth) stack target nodes pos op

def descend : Derivation → Nat → Descent :=
  descendBy .total

def differentiateWithin (ctx : Derivation) (depth : Nat) (e : Expression) (target : Target) :
    Attempt Expression := do
  orDefect e.check
  whole (ctx.descend depth) [] target e

end Derivation

namespace Expression

def unrollLimit : UInt64 := 4096

def derivative (e : Expression) (target : Target) (env : Environment)
    (limit : UInt64) : Attempt Expression :=
  Derivation.differentiateWithin ⟨env, limit⟩ walkDepth e target

def derivativeOrNullWithin (depth : Nat) (e : Expression) (address : Address) (env : Environment)
    (limit : UInt64) : Option Expression :=
  (Derivation.differentiateWithin ⟨env, limit⟩ depth e (.var address)).run.map fun
    | .ok d => d
    | .error _ => null

def derivativeOrNull (e : Expression) (address : Address) (env : Environment)
    (limit : UInt64) : Option Expression :=
  e.derivativeOrNullWithin walkDepth address env limit

end Expression

end PrefixCalculus
