import PrefixCalculus.Expression
import PrefixCalculus.Operator.Value
set_option autoImplicit false

/-!
Builders that derivatives are put together with. Literal operands are folded through the operators'
arithmetic, literal zeros and ones go, and a double negation cancels, so that the derivative of what
does not depend on the target stays the literal zero.
-/

namespace PrefixCalculus

namespace Folding

variable [SpecialFunctions]

def zero : Expression := .const 0.0

def one : Expression := .const 1.0

def isZero (e : Expression) : Bool :=
  match e.constant? with
  | some x => x == 0.0
  | none => false

def isOne (e : Expression) : Bool :=
  match e.constant? with
  | some x => x == 1.0
  | none => false

def unary (op : UnaryOp) (a : Expression) : Expression :=
  match a.literal? with
  | some x => .literal (x.apply op)
  | none => .unary op a

def binary (op : BinaryOp) (a b : Expression) : Expression :=
  match a.constant?, b.constant? with
  | some x, some y => .const (op.apply x y)
  | _, _ => .binary op a b

def neg (a : Expression) : Expression :=
  if a.nodes[0]? = some (.op (.unary .neg)) then Expression.slice a.nodes 1 a.size
  else unary .neg a

def add (a b : Expression) : Expression :=
  if isZero a then b else if isZero b then a else binary .add a b

def sub (a b : Expression) : Expression :=
  if isZero b then a else if isZero a then neg b else binary .sub a b

def mul (a b : Expression) : Expression :=
  if isZero a || isZero b then zero
  else if isOne a then b
  else if isOne b then a
  else binary .mul a b

def div (a b : Expression) : Expression :=
  if isZero a then zero else if isOne b then a else binary .div a b

def pow (a b : Expression) : Expression :=
  if isOne b then a else binary .power a b

def square (a : Expression) : Expression :=
  pow a (.const 2.0)

omit [SpecialFunctions] in
@[simp] theorem isZero_zero : isZero zero = true := by decide

theorem add_zero_left (b : Expression) : add zero b = b := by
  simp [add]

theorem mul_zero_left (b : Expression) : mul zero b = zero := by
  simp [mul]

theorem mul_zero_right (a : Expression) : mul a zero = zero := by
  simp [mul]

theorem div_zero_left (b : Expression) : div zero b = zero := by
  simp [div]

end Folding

end PrefixCalculus
