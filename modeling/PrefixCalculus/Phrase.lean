import PrefixCalculus.Operator
set_option autoImplicit false

/-!
Phrases of infix text. From loose to tight: `||`, `&&`, equality, order, sums, products, all grouping
to the left; then the prefix signs; then powers, whose exponent may have a prefix sign and which group
to the right.
-/

namespace PrefixCalculus

inductive Phrase
  | number (value : Float)
  | name (s : String)
  | neg (operand : Phrase)
  | not (operand : Phrase)
  | binary (op : BinaryOp) (lhs rhs : Phrase)
  | call (name : String) (args : List Phrase)
  /-- What stands for a group that was skipped. -/
  | error
  deriving Inhabited

namespace Phrase

/-- The operators that group to the left, from the loosest to the tightest. -/
def levels : List (List BinaryOp) :=
  [[.or], [.and], [.eq, .ne], [.le, .ge, .lt, .gt], [.add, .sub], [.mul, .div, .mod]]

end Phrase

end PrefixCalculus
