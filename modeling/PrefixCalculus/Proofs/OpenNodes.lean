import PrefixCalculus.Proofs.Instantiation
set_option autoImplicit false

/-!
The variables, parameters and calls of an expression, in the order of its flat form. Main statement:
those of a term are those of its operands, behind the call or the variable of the loop at its head.
-/

namespace PrefixCalculus

namespace Expression

/-- The variables, parameters and calls of an expression, from left to right; the variables of loops
are among them. -/
def openNodes (e : Expression) : List Node :=
  e.nodes.toList.filter Node.isOpen

theorem mem_openNodes {e : Expression} {n : Node} :
    n ∈ e.openNodes ↔ n ∈ e.nodes ∧ n.isOpen = true := by
  simp [openNodes]

@[simp] theorem filter_isOpen_spanned (body : Array Node) :
    (spanned body).toList.filter Node.isOpen = body.toList.filter Node.isOpen := by
  simp [spanned, Node.isOpen]

end Expression

namespace Term

@[simp] theorem openNodes_literal (x : Literal) : (literal x).encode.openNodes = [] := rfl

@[simp] theorem openNodes_ref (a : Address) : (ref a).encode.openNodes = [.ref a] := rfl

@[simp] theorem openNodes_arg (i : UInt32) : (arg i).encode.openNodes = [.arg i] := rfl

@[simp] theorem openNodes_unary (op : UnaryOp) (t : Term) :
    (unary op t).encode.openNodes = t.encode.openNodes := by
  simp [Expression.openNodes, nodes_unary, Node.isOpen]

@[simp] theorem openNodes_binary (op : BinaryOp) (a b : Term) :
    (binary op a b).encode.openNodes = a.encode.openNodes ++ b.encode.openNodes := by
  simp [Expression.openNodes, nodes_binary, Node.isOpen]

@[simp] theorem openNodes_branch (c a b : Term) : (branch c a b).encode.openNodes
    = c.encode.openNodes ++ a.encode.openNodes ++ b.encode.openNodes := by
  simp [Expression.openNodes, nodes_branch, Node.isOpen]

@[simp] theorem openNodes_loop (kind : Fold) (v : Address) (lower upper body : Term) :
    (loop kind v lower upper body).encode.openNodes = .ref v ::
      (lower.encode.openNodes ++ upper.encode.openNodes ++ body.encode.openNodes) := by
  simp [Expression.openNodes, nodes_loop, Node.isOpen, List.filter_cons]

theorem openNodes_concat (ts : List Term) :
    (Expression.concat (encodeAll ts)).toList.filter Node.isOpen
      = ts.flatMap fun t => t.encode.openNodes := by
  induction ts with
  | nil => rfl
  | cons t ts ih =>
    rw [encodeAll, Expression.concat_cons, Array.toList_append, List.filter_append, ih]
    rfl

@[simp] theorem openNodes_call (f : FunctionId) (args : List Term) :
    (call f args).encode.openNodes = .call f (UInt32.ofNat args.length) ::
      args.flatMap fun t => t.encode.openNodes := by
  rw [Expression.openNodes, nodes_call, Array.toList_append, List.filter_append, openNodes_concat]
  rfl

end Term

end PrefixCalculus
