set_option autoImplicit false

/-!
The closed set of operators of an expression. An operator is unary, binary, the lazy branch or one of
the two folds over an integer range; its number of operands follows from that shape. Main statements:
the name of an operator finds it again, and so does its place in the list of all operators.
-/

namespace PrefixCalculus

inductive UnaryOp
  | not | neg | abs | sqrt | exp | ln | log10 | log2
  | sin | cos | tan | asin | acos | atan
  | sinh | cosh | tanh | asinh | acosh | atanh
  | gamma | lnGamma | digamma | trigamma | tetragamma
  | factorial | floor | ceil | round | sign
  | erf | erfc | normPdf | normCdf | zeta
  deriving DecidableEq, Repr, Inhabited

inductive BinaryOp
  | add | sub | mul | div | mod | power | logBase | max | min | choose | beta
  | lt | le | gt | ge | eq | ne
  | and | or
  deriving DecidableEq, Repr, Inhabited

inductive Fold
  | sum | product
  deriving DecidableEq, Repr, Inhabited

/-- What may head the encoding of a compound expression, calls apart. -/
inductive Operator
  | binary (op : BinaryOp)
  | unary (op : UnaryOp)
  | branch
  | fold (kind : Fold)
  deriving DecidableEq, Repr, Inhabited

inductive Family
  | arithmetic | comparison | boolean | unary | control
  deriving DecidableEq, Repr

def UnaryOp.all : List UnaryOp :=
  [.not, .neg, .abs, .sqrt, .exp, .ln, .log10, .log2, .sin, .cos, .tan, .asin, .acos, .atan,
    .sinh, .cosh, .tanh, .asinh, .acosh, .atanh, .gamma, .lnGamma, .digamma, .trigamma,
    .tetragamma, .factorial, .floor, .ceil, .round, .sign, .erf, .erfc, .normPdf, .normCdf, .zeta]

def BinaryOp.all : List BinaryOp :=
  [.add, .sub, .mul, .div, .mod, .power, .logBase, .max, .min, .choose, .beta,
    .lt, .le, .gt, .ge, .eq, .ne, .and, .or]

def UnaryOp.name : UnaryOp → String
  | .not => "not" | .neg => "neg" | .abs => "abs" | .sqrt => "sqrt" | .exp => "exp"
  | .ln => "ln" | .log10 => "log10" | .log2 => "log2"
  | .sin => "sin" | .cos => "cos" | .tan => "tan"
  | .asin => "asin" | .acos => "acos" | .atan => "atan"
  | .sinh => "sinh" | .cosh => "cosh" | .tanh => "tanh"
  | .asinh => "asinh" | .acosh => "acosh" | .atanh => "atanh"
  | .gamma => "gamma" | .lnGamma => "lngamma" | .digamma => "digamma"
  | .trigamma => "trigamma" | .tetragamma => "tetragamma" | .factorial => "factorial"
  | .floor => "floor" | .ceil => "ceil" | .round => "round" | .sign => "sign"
  | .erf => "erf" | .erfc => "erfc" | .normPdf => "normpdf" | .normCdf => "normcdf"
  | .zeta => "zeta"

def BinaryOp.name : BinaryOp → String
  | .add => "add" | .sub => "sub" | .mul => "mul" | .div => "div" | .mod => "mod"
  | .power => "power" | .logBase => "logbase" | .max => "max" | .min => "min"
  | .choose => "choose" | .beta => "beta"
  | .lt => "lt" | .le => "le" | .gt => "gt" | .ge => "ge" | .eq => "eq" | .ne => "ne"
  | .and => "and" | .or => "or"

def Fold.name : Fold → String
  | .sum => "sums"
  | .product => "prods"

namespace Operator

def all : List Operator :=
  BinaryOp.all.map .binary ++ UnaryOp.all.map .unary ++ [.branch, .fold .sum, .fold .product]

def name : Operator → String
  | binary op => op.name
  | unary op => op.name
  | branch => "bnz"
  | fold kind => kind.name

def ofName? (s : String) : Option Operator :=
  all.find? fun op => op.name == s

def ofIndex? (i : Nat) : Option Operator :=
  all[i]?

def index (op : Operator) : Nat :=
  all.idxOf op

/-- Number of operands; spans and the loop variable of a fold count among them. -/
def arity : Operator → Nat
  | unary _ => 1
  | binary _ => 2
  | branch => 3
  | fold _ => 4

def family : Operator → Family
  | unary .not => .boolean
  | unary _ => .unary
  | binary .lt | binary .le | binary .gt | binary .ge | binary .eq | binary .ne => .comparison
  | binary .and | binary .or => .boolean
  | binary _ => .arithmetic
  | branch => .control
  | fold _ => .control

end Operator

/-- The value is constant between jumps, so its derivative is zero almost everywhere. -/
def UnaryOp.isPiecewiseConstant : UnaryOp → Bool
  | .not | .floor | .ceil | .round | .sign | .factorial => true
  | _ => false

@[inherit_doc UnaryOp.isPiecewiseConstant]
def BinaryOp.isPiecewiseConstant : BinaryOp → Bool
  | .lt | .le | .gt | .ge | .eq | .ne | .and | .or | .choose => true
  | _ => false

def UnaryOp.isNonDifferentiable : UnaryOp → Bool
  | .zeta | .tetragamma => true
  | _ => false

def BinaryOp.isCommutative : BinaryOp → Bool
  | .add | .mul | .max | .min | .eq | .ne | .and | .or => true
  | _ => false

def BinaryOp.symbol? : BinaryOp → Option String
  | .add => some "+" | .sub => some "-" | .mul => some "*" | .div => some "/"
  | .mod => some "%" | .power => some "^"
  | .lt => some "<" | .le => some "<=" | .gt => some ">" | .ge => some ">="
  | .eq => some "==" | .ne => some "!="
  | .and => some "&&" | .or => some "||"
  | _ => none

namespace Operator

def isPiecewiseConstant : Operator → Bool
  | unary op => op.isPiecewiseConstant
  | binary op => op.isPiecewiseConstant
  | _ => false

def isNonDifferentiable : Operator → Bool
  | unary op => op.isNonDifferentiable
  | _ => false

def isCommutative : Operator → Bool
  | binary op => op.isCommutative
  | _ => false

def symbol? : Operator → Option String
  | binary op => op.symbol?
  | _ => none

theorem mem_all (op : Operator) : op ∈ all := by
  cases op with
  | binary op => cases op <;> decide
  | unary op => cases op <;> decide
  | branch => decide
  | fold kind => cases kind <;> decide

theorem ofIndex?_index (op : Operator) : ofIndex? op.index = some op := by
  have h : all.idxOf op < all.length := List.idxOf_lt_length_iff.2 (mem_all op)
  simp [ofIndex?, index, h]

theorem ofName?_name (op : Operator) : ofName? op.name = some op := by
  cases op with
  | binary op => cases op <;> rfl
  | unary op => cases op <;> rfl
  | branch => rfl
  | fold kind => cases kind <;> rfl

end Operator

end PrefixCalculus
