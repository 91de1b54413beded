import PrefixCalculus.Node
import PrefixCalculus.Numeric.Counting
import PrefixCalculus.Numeric.Polygamma
import PrefixCalculus.Numeric.Zeta
set_option autoImplicit false

/-!
What the operators compute. Undefined results are NaN; comparisons and connectives give one or zero,
and NaN as soon as an operand is NaN.
-/

namespace PrefixCalculus

variable [SpecialFunctions]

def UnaryOp.apply (op : UnaryOp) (x : Float) : Float :=
  match op with
  | .not => if x.isNaN then nan else 1.0 - truth x
  | .neg => -x
  | .abs => x.abs
  | .sqrt => x.sqrt
  | .exp => x.exp
  | .ln => x.log
  | .log10 => x.log10
  | .log2 => x.log2
  | .sin => x.sin
  | .cos => x.cos
  | .tan => x.tan
  | .asin => x.asin
  | .acos => x.acos
  | .atan => x.atan
  | .sinh => x.sinh
  | .cosh => x.cosh
  | .tanh => x.tanh
  | .asinh => arsinh x
  | .acosh => arcosh x
  | .atanh => artanh x
  | .gamma => PrefixCalculus.gamma x
  | .lnGamma => logGamma x
  | .digamma => PrefixCalculus.digamma x
  | .trigamma => PrefixCalculus.trigamma x
  | .tetragamma => PrefixCalculus.tetragamma x
  | .factorial => PrefixCalculus.factorial x
  | .floor => PrefixCalculus.floor x
  | .ceil => PrefixCalculus.ceil x
  | .round => PrefixCalculus.round x
  | .sign => PrefixCalculus.sign x
  | .erf => SpecialFunctions.erf x
  | .erfc => SpecialFunctions.erfc x
  | .normPdf => normalDensity x
  | .normCdf => normalDistribution x
  | .zeta => PrefixCalculus.zeta x

/-- The sign of a NaN follows a negation. Arithmetic leaves that of any other NaN open; here it has
none. -/
def Literal.apply (op : UnaryOp) (x : Literal) : Literal :=
  if op = .neg then x.negate else .number (op.apply x.value)

namespace BinaryOp

/-- The operators that refuse NaN before they look at anything else. -/
def isLogical : BinaryOp → Bool
  | lt | le | gt | ge | eq | ne | and | or => true
  | _ => false

def compute (op : BinaryOp) (a b : Float) : Float :=
  match op with
  | add => a + b
  | sub => a - b
  | mul => a * b
  | div => a / b
  | mod => flooredMod a b
  | power => Float.pow a b
  | logBase => Float.log a / Float.log b
  | max => larger a b
  | min => smaller a b
  | choose => PrefixCalculus.choose a b
  | beta => PrefixCalculus.beta a b
  | lt => ofBool (a < b)
  | le => ofBool (a <= b)
  | gt => ofBool (a > b)
  | ge => ofBool (a >= b)
  | eq => ofBool (a == b)
  | ne => ofBool (a != b)
  | and => truth a * truth b
  | or => truth (truth a + truth b)

def apply (op : BinaryOp) (a b : Float) : Float :=
  if op.isLogical && (a.isNaN || b.isNaN) then nan else op.compute a b

end BinaryOp

namespace Fold

def identity : Fold → Float
  | sum => 0.0
  | product => 1.0

def join (kind : Fold) (acc value : Float) : Float :=
  match kind with
  | sum => acc + value
  | product => acc * value

end Fold

namespace Operator

def applyOne (op : Operator) (x : Float) : Float :=
  match op with
  | unary op => op.apply x
  | _ => nan

def applyTwo (op : Operator) (a b : Float) : Float :=
  match op with
  | binary op => op.apply a b
  | _ => nan

end Operator

end PrefixCalculus
