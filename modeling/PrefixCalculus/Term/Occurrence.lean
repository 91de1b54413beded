import PrefixCalculus.Term
set_option autoImplicit false

/-!
Where variables, parameters and calls occur in a term, and what stands in their place after a
substitution. A loop binds its variable in its body and not in its bounds.
-/

namespace PrefixCalculus

namespace Term

mutual

def hasFree (address : Address) : Term → Bool
  | literal _ | arg _ => false
  | ref a => a == address
  | unary _ operand => operand.hasFree address
  | binary _ lhs rhs => lhs.hasFree address || rhs.hasFree address
  | branch condition yes no =>
    condition.hasFree address || yes.hasFree address || no.hasFree address
  | loop _ a lower upper body =>
    lower.hasFree address || upper.hasFree address || (a != address && body.hasFree address)
  | call _ args => anyHasFree address args

def anyHasFree (address : Address) : List Term → Bool
  | [] => false
  | t :: ts => t.hasFree address || anyHasFree address ts

end

mutual

def replace (address : Address) (value : Term) : Term → Term
  | literal x => literal x
  | ref a => if a = address then value else ref a
  | arg index => arg index
  | unary op operand => unary op (replace address value operand)
  | binary op lhs rhs => binary op (replace address value lhs) (replace address value rhs)
  | branch condition yes no =>
    branch (replace address value condition) (replace address value yes) (replace address value no)
  | loop kind a lower upper body =>
    loop kind a (replace address value lower) (replace address value upper)
      (if a = address then body else replace address value body)
  | call f args => call f (replaceAll address value args)

def replaceAll (address : Address) (value : Term) : List Term → List Term
  | [] => []
  | t :: ts => replace address value t :: replaceAll address value ts

end

mutual

/-- The term with arguments in place of its parameters; parameters beyond them stay. -/
def instantiate (args : List Term) : Term → Term
  | literal x => literal x
  | ref a => ref a
  | arg index => (args[index.toNat]?).getD (arg index)
  | unary op operand => unary op (operand.instantiate args)
  | binary op lhs rhs => binary op (lhs.instantiate args) (rhs.instantiate args)
  | branch condition yes no =>
    branch (condition.instantiate args) (yes.instantiate args) (no.instantiate args)
  | loop kind a lower upper body =>
    loop kind a (lower.instantiate args) (upper.instantiate args) (body.instantiate args)
  | call f ts => call f (instantiateAll args ts)

def instantiateAll (args : List Term) : List Term → List Term
  | [] => []
  | t :: ts => t.instantiate args :: instantiateAll args ts

end

end Term

end PrefixCalculus
