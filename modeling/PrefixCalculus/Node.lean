import PrefixCalculus.Numeric.Parts
import PrefixCalculus.Operator
set_option autoImplicit false

/-!
The nodes that an expression is encoded with. A compound expression is its head node followed by its
operands; an operand that must not be evaluated at once lies in a span, between an opening node and a
closing node that both hold the distance to the other.
-/

namespace PrefixCalculus

structure Address where
  index : UInt32
  deriving DecidableEq, Repr, Inhabited

namespace Address

/-- What an unknown name resolves to when it may not be given a place. -/
def none : Address := ⟨0xFFFFFFFF⟩

def text (a : Address) : String :=
  "$" ++ toString a.index

end Address

structure FunctionId where
  index : UInt32
  deriving DecidableEq, Repr, Inhabited

namespace FunctionId

def text (f : FunctionId) : String :=
  "@" ++ toString f.index

end FunctionId

/-- A number in an expression. Values have one NaN; in an expression it has a sign, which shows when
it is printed. -/
inductive Literal
  | number (value : Float)
  | negativeNaN
  deriving DecidableEq, Inhabited

namespace Literal

def value : Literal → Float
  | number x => x
  | negativeNaN => nan

@[simp] theorem value_number (x : Float) : (number x).value = x := rfl

def isNegative : Literal → Bool
  | number x => signBit x
  | negativeNaN => true

def negate : Literal → Literal
  | number x => if x.isNaN then negativeNaN else number (-x)
  | negativeNaN => number nan

end Literal

inductive Node
  | literal (x : Literal)
  | ref (address : Address)
  /-- A parameter of the function whose body this is. -/
  | arg (index : UInt32)
  | op (op : Operator)
  /-- A call; its arguments follow. -/
  | call (function : FunctionId) (argc : UInt32)
  | opening (distance : UInt32)
  | closing (distance : UInt32)
  deriving DecidableEq, Inhabited

@[match_pattern] abbrev Node.const (value : Float) : Node :=
  .literal (.number value)

/-- Equality as arithmetic sees it: NaN differs from itself, the two zeros agree. -/
def Node.agrees : Node → Node → Bool
  | .literal a, .literal b => a.value == b.value
  | a, b => a == b

def Node.isOpen : Node → Bool
  | .ref _ | .arg _ | .call _ _ => true
  | _ => false

end PrefixCalculus
