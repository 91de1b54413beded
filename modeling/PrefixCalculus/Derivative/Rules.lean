import PrefixCalculus.Derivative.Folding
import PrefixCalculus.Numeric.Special
set_option autoImplicit false

/-!
The rules of differentiation, one per operator: from the operands and their derivatives to the
derivative of the result. An operator without a rule has no derivative.
-/

namespace PrefixCalculus

variable [SpecialFunctions]

namespace Folding

def logTen : Float := 2.302585092994046

def logTwo : Float := 0.6931471805599453

/-- `2 / sqrt pi * exp (-u ^ 2)`, the slope of the error function. -/
def errorSlope (u : Expression) : Expression :=
  mul (.const (2.0 / Float.sqrt pi)) (unary .exp (neg (square u)))

def oneMinusSquare (u : Expression) : Expression :=
  sub one (square u)

end Folding

namespace UnaryOp

open Folding in
/-- The derivative of the operator's value at `u`, where `u` has the derivative `du`. -/
def derivative? (op : UnaryOp) (u du : Expression) : Option Expression :=
  match op with
  | neg => some (Folding.neg du)
  | abs => some (mul (unary sign u) du)
  | sqrt => some (div du (mul (.const 2.0) (unary sqrt u)))
  | exp => some (mul (unary exp u) du)
  | ln => some (div du u)
  | log10 => some (div du (mul u (.const logTen)))
  | log2 => some (div du (mul u (.const logTwo)))
  | sin => some (mul (unary cos u) du)
  | cos => some (Folding.neg (mul (unary sin u) du))
  | tan => some (div du (square (unary cos u)))
  | asin => some (div du (unary sqrt (oneMinusSquare u)))
  | acos => some (Folding.neg (div du (unary sqrt (oneMinusSquare u))))
  | atan => some (div du (add one (square u)))
  | sinh => some (mul (unary cosh u) du)
  | cosh => some (mul (unary sinh u) du)
  | tanh => some (div du (square (unary cosh u)))
  | asinh => some (div du (unary sqrt (add (square u) one)))
  | acosh => some (div du (unary sqrt (sub (square u) one)))
  | atanh => some (div du (oneMinusSquare u))
  | gamma => some (mul (mul (unary gamma u) (unary digamma u)) du)
  | lnGamma => some (mul (unary digamma u) du)
  | digamma => some (mul (unary trigamma u) du)
  | trigamma => some (mul (unary tetragamma u) du)
  | erf => some (mul (errorSlope u) du)
  | erfc => some (Folding.neg (mul (errorSlope u) du))
  | normPdf => some (Folding.neg (mul (mul u (unary normPdf u)) du))
  | normCdf => some (mul (unary normPdf u) du)
  | _ => none

end UnaryOp

namespace Folding

def quotientRule (a b da db : Expression) : Expression :=
  if isZero db then div da b
  else div (sub (mul da b) (mul db a)) (square b)

def pickRule (pick : BinaryOp) (a b da db : Expression) : Expression :=
  if isZero da && isZero db then zero
  else .branch (.binary pick a b) da db

def betaRule (a b da db : Expression) : Expression :=
  if isZero da && isZero db then zero
  else
    let slope := unary .digamma (add a b)
    mul (binary .beta a b)
      (add (mul (sub (unary .digamma a) slope) da) (mul (sub (unary .digamma b) slope) db))

def powerRule (a b da : Expression) : Expression :=
  if isZero da then zero
  else mul (mul b (pow a (sub b one))) da

def logBaseRule (a b da : Expression) : Expression :=
  div da (mul a (unary .ln b))

end Folding

namespace BinaryOp

open Folding in
def derivative? (op : BinaryOp) (a b da db : Expression) : Option Expression :=
  match op with
  | add => some (Folding.add da db)
  | sub => some (Folding.sub da db)
  | mul => some (Folding.add (Folding.mul da b) (Folding.mul a db))
  | div => some (quotientRule a b da db)
  | max => some (pickRule ge a b da db)
  | min => some (pickRule le a b da db)
  | beta => some (betaRule a b da db)
  | _ => none

end BinaryOp

end PrefixCalculus
