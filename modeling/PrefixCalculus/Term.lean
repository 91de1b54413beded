import PrefixCalculus.Expression.Check
set_option autoImplicit false

/-!
Expressions as trees. A term is written out through the builders, and read back from a buffer by
descent; reading looks into every span but does not ask that the body fills it, nor that nothing
follows the term. Main statement: what is written out is not null.
-/

namespace PrefixCalculus

inductive Term
  | literal (x : Literal)
  | ref (address : Address)
  | arg (index : UInt32)
  | unary (op : UnaryOp) (operand : Term)
  | binary (op : BinaryOp) (lhs rhs : Term)
  | branch (condition yes no : Term)
  | loop (kind : Fold) (address : Address) (lower upper body : Term)
  | call (function : FunctionId) (args : List Term)
  deriving Inhabited

namespace Term

@[match_pattern] abbrev const (value : Float) : Term :=
  literal (.number value)

mutual

def encode : Term → Expression
  | literal x => .literal x
  | ref address => .var address
  | arg index => .arg index
  | unary op operand => .unary op operand.encode
  | binary op lhs rhs => .binary op lhs.encode rhs.encode
  | branch condition yes no => .branch condition.encode yes.encode no.encode
  | loop kind address lower upper body => .loop kind address lower.encode upper.encode body.encode
  | call function args => .call function (encodeAll args)

def encodeAll : List Term → List Expression
  | [] => []
  | t :: ts => t.encode :: encodeAll ts

end

theorem encodeAll_eq_map (ts : List Term) : encodeAll ts = ts.map encode := by
  induction ts with
  | nil => rfl
  | cons t ts ih => simp [encodeAll, ih]

mutual

theorem isNull_encode : ∀ t : Term, t.encode.isNull = false
  | literal _ => rfl
  | ref _ => rfl
  | arg _ => rfl
  | unary op operand => by
    simp [encode, Expression.unary, Expression.operation, isNull_encode operand]
  | binary op lhs rhs => by
    simp [encode, Expression.binary, Expression.operation, isNull_encode lhs, isNull_encode rhs]
  | branch condition yes no => by
    simp [encode, Expression.isNull_branch, isNull_encode condition, isNull_encode yes,
      isNull_encode no]
  | loop kind address lower upper body => by
    simp [encode, Expression.isNull_loop, isNull_encode lower, isNull_encode upper,
      isNull_encode body]
  | call function args => by
    simp [encode, Expression.call, any_isNull_encodeAll args]

theorem any_isNull_encodeAll : ∀ ts : List Term, (encodeAll ts).any Expression.isNull = false
  | [] => rfl
  | t :: ts => by simp only [encodeAll, List.any_cons, isNull_encode t, any_isNull_encodeAll ts,
      Bool.or_false]

end

def decodeOperands (read : Nat → Except Defect (Term × Nat)) :
    Nat → Nat → Except Defect (List Term × Nat)
  | 0, pos => .ok ([], pos)
  | count + 1, pos => do
    let (t, pos) ← read pos
    let (ts, pos) ← decodeOperands read count pos
    return (t :: ts, pos)

/-- Read the term at a position and the position after it, at most `depth` operands deep. -/
def decodeFrom (nodes : Array Node) : Nat → Nat → Except Defect (Term × Nat)
  | 0, pos => .error (.truncated pos)
  | depth + 1, pos =>
    match nodes[pos]? with
    | none => .error (.truncated pos)
    | some (.literal x) => .ok (literal x, pos + 1)
    | some (.ref address) => .ok (ref address, pos + 1)
    | some (.arg index) => .ok (arg index, pos + 1)
    | some (.opening _) | some (.closing _) => .error (.strayMarker pos)
    | some (.call f argc) => do
      let (args, pos) ← decodeOperands (decodeFrom nodes depth) argc.toNat (pos + 1)
      return (call f args, pos)
    | some (.op (.unary op)) => do
      let (operand, pos) ← decodeFrom nodes depth (pos + 1)
      return (unary op operand, pos)
    | some (.op (.binary op)) => do
      let (lhs, pos) ← decodeFrom nodes depth (pos + 1)
      let (rhs, pos) ← decodeFrom nodes depth pos
      return (binary op lhs rhs, pos)
    | some (.op .branch) => do
      let (condition, pos) ← decodeFrom nodes depth (pos + 1)
      let first ← Span.at? nodes pos
      let (yes, _) ← decodeFrom nodes depth first.bodyStart
      let second ← Span.at? nodes first.stop
      let (no, _) ← decodeFrom nodes depth second.bodyStart
      return (branch condition yes no, second.stop)
    | some (.op (.fold kind)) =>
      match nodes[pos + 1]? with
      | some (.ref address) => do
        let (lower, pos) ← decodeFrom nodes depth (pos + 2)
        let (upper, pos) ← decodeFrom nodes depth pos
        let span ← Span.at? nodes pos
        let (body, _) ← decodeFrom nodes depth span.bodyStart
        return (loop kind address lower upper body, span.stop)
      | _ => .error (.variableExpected pos)

def decodeAt (nodes : Array Node) (pos : Nat) : Except Defect (Term × Nat) :=
  decodeFrom nodes (nodes.size + 1) pos

def decode (e : Expression) : Except Defect Term :=
  (decodeAt e.nodes 0).map Prod.fst

mutual

def calls : Term → List (FunctionId × Nat)
  | literal _ | ref _ | arg _ => []
  | unary _ operand => operand.calls
  | binary _ lhs rhs => lhs.calls ++ rhs.calls
  | branch condition yes no => condition.calls ++ yes.calls ++ no.calls
  | loop _ _ lower upper body => lower.calls ++ upper.calls ++ body.calls
  | call f args => callsAll args ++ [(f, args.length)]

def callsAll : List Term → List (FunctionId × Nat)
  | [] => []
  | t :: ts => t.calls ++ callsAll ts

end

end Term

end PrefixCalculus
