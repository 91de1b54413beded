import PrefixCalculus.Span
set_option autoImplicit false

/-!
Flat expressions and how they are put together. The empty buffer is the null expression, the result
of what failed; a builder with a null operand gives null. The builders only lay nodes out: an
operator with the wrong number of operands, or an operand that is no expression, is found by the
check. Main statements: a builder gives null exactly when an operand is null.
-/

namespace PrefixCalculus

structure Expression where
  nodes : Array Node
  deriving DecidableEq, Inhabited

namespace Expression

/-- The expression that stands for a failure. -/
def null : Expression := ⟨#[]⟩

def isNull (e : Expression) : Bool := e.nodes.isEmpty

def size (e : Expression) : Nat := e.nodes.size

def leaf (node : Node) : Expression := ⟨#[node]⟩

def literal (x : Literal) : Expression := leaf (.literal x)

abbrev const (value : Float) : Expression := literal (.number value)

def var (address : Address) : Expression := leaf (.ref address)

def arg (index : UInt32) : Expression := leaf (.arg index)

/-- Node after node the same to arithmetic. -/
def agrees (a b : Expression) : Bool :=
  a.size == b.size && (a.nodes.zip b.nodes).all fun (x, y) => x.agrees y

def concat (es : List Expression) : Array Node :=
  es.foldl (fun acc e => acc ++ e.nodes) #[]

def headed (head : Node) (operands : List Expression) : Expression :=
  if operands.any isNull then null else ⟨#[head] ++ concat operands⟩

def operation (op : Operator) (operands : List Expression) : Expression :=
  headed (.op op) operands

def unary (op : UnaryOp) (operand : Expression) : Expression :=
  operation (.unary op) [operand]

def binary (op : BinaryOp) (lhs rhs : Expression) : Expression :=
  operation (.binary op) [lhs, rhs]

/-- The nodes between an opening and a closing node; distances wrap beyond 32 bits. -/
def spanned (body : Array Node) : Array Node :=
  let distance := UInt32.ofNat (body.size + 1)
  #[.opening distance] ++ body ++ #[.closing distance]

def delayed (e : Expression) : Expression :=
  if e.isNull then null else ⟨spanned e.nodes⟩

def branch (condition yes no : Expression) : Expression :=
  operation .branch [condition, yes.delayed, no.delayed]

def loop (kind : Fold) (address : Address) (lower upper body : Expression) : Expression :=
  operation (.fold kind) [var address, lower, upper, body.delayed]

def call (function : FunctionId) (args : List Expression) : Expression :=
  headed (.call function (UInt32.ofNat args.length)) args

def slice (nodes : Array Node) (start stop : Nat) : Expression :=
  ⟨nodes.extract start stop⟩

def literal? (e : Expression) : Option Literal :=
  match e.nodes.toList with
  | [.literal x] => some x
  | _ => none

def constant? (e : Expression) : Option Float :=
  e.literal?.map Literal.value

def isClosed (e : Expression) : Bool :=
  !e.isNull && e.nodes.all fun node => !node.isOpen

def mentions (e : Expression) (address : Address) : Bool :=
  e.nodes.contains (.ref address)

@[simp] theorem isNull_null : null.isNull = true := rfl

@[simp] theorem isNull_leaf (node : Node) : (leaf node).isNull = false := rfl

theorem isNull_iff (e : Expression) : e.isNull = true ↔ e = null := by
  obtain ⟨nodes⟩ := e
  simp [isNull, null]

@[simp] theorem isNull_cons (head : Node) (rest : Array Node) :
    (⟨#[head] ++ rest⟩ : Expression).isNull = false := by
  simp [isNull, Array.isEmpty]

@[simp] theorem isNull_headed (head : Node) (operands : List Expression) :
    (headed head operands).isNull = operands.any isNull := by
  unfold headed
  split
  · rename_i h; rw [h]; rfl
  · rename_i h; rw [isNull_cons]; simpa using h

@[simp] theorem isNull_delayed (e : Expression) : e.delayed.isNull = e.isNull := by
  unfold delayed
  split
  · rename_i h; rw [h]; rfl
  · rename_i h
    rw [spanned, Array.append_assoc, isNull_cons]
    simpa using h

theorem isNull_branch (condition yes no : Expression) :
    (branch condition yes no).isNull = (condition.isNull || yes.isNull || no.isNull) := by
  simp [branch, operation, Bool.or_assoc]

theorem isNull_loop (kind : Fold) (address : Address) (lower upper body : Expression) :
    (loop kind address lower upper body).isNull
      = (lower.isNull || upper.isNull || body.isNull) := by
  simp [loop, operation, var, Bool.or_assoc]

end Expression

end PrefixCalculus
