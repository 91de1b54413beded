import PrefixCalculus.Evaluation
import PrefixCalculus.Term
set_option autoImplicit false

/-!
Simplification of terms from the leaves upwards: literals are folded through the operators' own
arithmetic, neutral and annihilating operands go, the literals of a chain of additions or
multiplications are merged into one, a branch on a literal is decided, and a call of a function with a
closed body is replaced by its value.
-/

namespace PrefixCalculus

namespace Term

def constant? : Term → Option Float
  | literal x => some x.value
  | _ => none

/-- A literal equal to the number; the two zeros are equal. -/
def isConst (value : Float) : Term → Bool
  | literal x => x.value == value
  | _ => false

def chainOnto (op : BinaryOp) : Term → List Term → List Term
  | binary o lhs rhs, tail =>
    if o = op then chainOnto op lhs (chainOnto op rhs tail) else binary o lhs rhs :: tail
  | t, tail => t :: tail

def chain (op : BinaryOp) (t : Term) : List Term :=
  chainOnto op t []

def joinChain (op : BinaryOp) (first : Term) (rest : List Term) : Term :=
  rest.foldl (binary op) first

def chainIdentity : BinaryOp → Float
  | .mul => 1.0
  | _ => 0.0

/-- Put the merged literal into its place: last in a sum, first in a product. -/
def placeLiteral (op : BinaryOp) (literal : Float) (t : Term) : Term :=
  if op = .mul then binary op (const literal) t else binary op t (const literal)

/-- A chain whose literals are merged into one, dropped when it is the identity. -/
def mergeChain [SpecialFunctions] (op : BinaryOp) (lhs rhs : Term) : Term :=
  let operands := chainOnto op lhs (chain op rhs)
  let literals := operands.filterMap constant?
  let literal := literals.foldl op.apply (chainIdentity op)
  match operands.filter fun t => t.constant?.isNone with
  | [] => const literal
  | first :: rest =>
    if op = .mul && literal == 0.0 then const 0.0
    else if literal.isNaN then const nan
    else
      let joined := joinChain op first rest
      if literals.isEmpty || literal == chainIdentity op then joined
      else placeLiteral op literal joined

theorem chainOnto_append (op : BinaryOp) (t : Term) (front back : List Term) :
    chainOnto op t (front ++ back) = chainOnto op t front ++ back := by
  fun_induction chainOnto op t front <;> simp_all [chainOnto]

theorem chainOnto_eq (op : BinaryOp) (t : Term) (tail : List Term) :
    chainOnto op t tail = chain op t ++ tail :=
  chainOnto_append op t [] tail

@[simp] theorem chain_binary_self (op : BinaryOp) (lhs rhs : Term) :
    chain op (binary op lhs rhs) = chain op lhs ++ chain op rhs := by
  rw [chain, chainOnto, if_pos rfl, chainOnto_eq op lhs]
  rfl

variable [SpecialFunctions]

def reduceUnary (op : UnaryOp) : Term → Term
  | literal x => literal (x.apply op)
  | unary .neg inner => if op = .neg then inner else unary op (unary .neg inner)
  | operand => unary op operand

def reduceBinary (op : BinaryOp) (lhs rhs : Term) : Term :=
  match lhs.constant?, rhs.constant? with
  | some a, some b => const (op.apply a b)
  | _, _ =>
    match op with
    | .add | .mul => mergeChain op lhs rhs
    | .sub =>
      if rhs.isConst 0.0 then lhs
      else if lhs.isConst 0.0 then reduceUnary .neg rhs
      else binary op lhs rhs
    | .div => if rhs.isConst 1.0 then lhs else binary op lhs rhs
    | .power =>
      if rhs.isConst 1.0 then lhs
      else if rhs.isConst 0.0 then const 1.0
      else binary op lhs rhs
    | _ => binary op lhs rhs

def constantLoop (kind : Fold) (lower upper value : Float) : Float :=
  match LoopRange.ofBounds? lower upper with
  | none => nan
  | some range =>
    let count := range.remaining.toFloat
    match kind with
    | .sum => if count == 0.0 then 0.0 else count * value
    | .product => Float.pow value count

def reduceLoop (kind : Fold) (address : Address) (lower upper body : Term) : Term :=
  match lower.constant?, upper.constant?, body.constant? with
  | some lo, some hi, some value => const (constantLoop kind lo hi value)
  | _, _, _ => loop kind address lower upper body

def closedCall? (env : Environment) (f : FunctionId) (argc : Nat) : Option Float := do
  let function ← env.function? f
  if function.argc.toNat = argc && function.body.isClosed then function.body.closedValue else none

def reduceCall (env : Environment) (f : FunctionId) (args : List Term) : Term :=
  match closedCall? env f args.length with
  | some value => const value
  | none => call f args

mutual

def simplify (env : Environment) : Term → Term
  | literal x => literal x
  | ref address => ref address
  | arg index => arg index
  | unary op operand => reduceUnary op (operand.simplify env)
  | binary op lhs rhs => reduceBinary op (lhs.simplify env) (rhs.simplify env)
  | branch condition yes no =>
    match condition.simplify env with
    | literal c =>
      if c.value.isNaN then const nan
      else if c.value != 0.0 then yes.simplify env
      else no.simplify env
    | condition => branch condition (yes.simplify env) (no.simplify env)
  | loop kind address lower upper body =>
    reduceLoop kind address (lower.simplify env) (upper.simplify env) (body.simplify env)
  | call f args => reduceCall env f (simplifyAll env args)

def simplifyAll (env : Environment) : List Term → List Term
  | [] => []
  | t :: ts => t.simplify env :: simplifyAll env ts

end

end Term

namespace Expression

variable [SpecialFunctions]

/-- The simplified expression; what is no expression is left alone. -/
def simplify (e : Expression) (env : Environment) : Expression :=
  match e.check, Term.decode e with
  | .ok _, .ok t => (t.simplify env).encode
  | _, _ => e

end Expression

end PrefixCalculus
