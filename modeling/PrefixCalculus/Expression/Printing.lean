import PrefixCalculus.Decimal.Text
import PrefixCalculus.Environment
import PrefixCalculus.Layout.Renderer
import PrefixCalculus.Layout.Style
import PrefixCalculus.Term
set_option autoImplicit false

/-!
Infix text of expressions, put together in one walk over the nodes. Operands that bind looser than
their place asks for are parenthesised; what is not written with a sign is written like a call, and
only there a line may be broken. Variables and functions are written with their names, or with their
places if they have none. A term has its document too, by recursion on the term.
-/

namespace PrefixCalculus

/-- A number in an expression: positional unless it is very large or very small. -/
def expressionNumber (x : Float) : String :=
  if !x.isNaN && !x.isInf && x != 0.0 && (x.abs >= 1e16 || x.abs < 1e-6) then scientificText x
  else positionalText x

namespace Term

def tight : Nat := 255

def bindingOf : BinaryOp → Nat
  | .or => 1
  | .and => 2
  | .eq | .ne => 3
  | .lt | .le | .gt | .ge => 4
  | .add | .sub => 5
  | .mul | .div | .mod => 6
  | .power => 8
  | _ => tight

/-- How strongly a term holds together; a literal with a sign binds like a negation. -/
def binding : Term → Nat
  | literal x => if x.isNegative then 7 else tight
  | unary .neg _ | unary .not _ => 7
  | binary op _ _ => bindingOf op
  | _ => tight

/-- The least binding of the left and of the right operand; powers group to the right. -/
def operandBindings (op : BinaryOp) : Nat × Nat :=
  if op = .power then (bindingOf op + 1, bindingOf op) else (bindingOf op, bindingOf op + 1)

abbrev Styled := Document Style

def styled (style : Style) (s : String) : Styled :=
  .text style s

def parens (depth : UInt8) (d : Styled) : Styled :=
  styled (.paren depth) "(" ++ d ++ styled (.paren depth) ")"

def applied (name : Styled) (depth : UInt8) : List Styled → Styled
  | [] => .group (name ++ (styled (.paren depth) "(" ++ styled (.paren depth) ")"))
  | first :: rest =>
    let separator := styled .punctuation "," ++ Document.line
    .group (name ++ parens depth (.nest 2 (Document.intersperse separator first rest)))

def infixed (op : String) (lhs rhs : Styled) : Styled :=
  .group (lhs ++ styled .plain " " ++ styled .operator op ++ styled .plain " " ++ rhs)

def variableName (env : Environment) (address : Address) : String :=
  (env.nameOf? address).getD address.text

def functionName (env : Environment) (f : FunctionId) : String :=
  match env.function? f with
  | some function => function.name
  | none => f.text

def foldKeyword : Fold → String
  | .sum => "sum"
  | .product => "prod"

def callName : BinaryOp → String
  | .logBase => "log"
  | op => op.name

def enclosed (tooLoose : Bool) (depth : UInt8) (d : UInt8 → Styled) : Styled :=
  if tooLoose then .group (parens depth (d (depth + 1))) else d depth

mutual

def document (env : Environment) : Term → UInt8 → Styled
  | literal x, _ => styled .number (expressionNumber x.value)
  | ref address, _ => styled .ident (variableName env address)
  | arg index, _ => styled .ident ("_" ++ toString index)
  | unary .neg t, depth =>
    styled .operator "-" ++ enclosed (t.binding < 7) depth (t.document env)
  | unary .not t, depth =>
    styled .operator "!" ++ enclosed (t.binding < 7) depth (t.document env)
  | unary op t, depth => applied (styled .function op.name) depth [t.document env (depth + 1)]
  | binary op a b, depth =>
    match op.symbol? with
    | some symbol =>
      infixed symbol
        (enclosed (a.binding < (operandBindings op).1) depth (a.document env))
        (enclosed (b.binding < (operandBindings op).2) depth (b.document env))
    | none =>
      applied (styled .function (callName op)) depth
        [a.document env (depth + 1), b.document env (depth + 1)]
  | branch c a b, depth =>
    applied (styled .keyword "if") depth
      [c.document env (depth + 1), a.document env (depth + 1), b.document env (depth + 1)]
  | loop kind address lower upper body, depth =>
    applied (styled .keyword (foldKeyword kind)) depth
      [styled .ident (variableName env address), lower.document env (depth + 1),
        upper.document env (depth + 1), body.document env (depth + 1)]
  | call f args, depth =>
    applied (styled .function (functionName env f)) depth (documents env args (depth + 1))

def documents (env : Environment) : List Term → UInt8 → List Styled
  | [], _ => []
  | t :: ts, depth => t.document env depth :: documents env ts depth

end

end Term

def Node.binding : Node → Nat
  | .literal x => if x.isNegative then 7 else Term.tight
  | .op (.unary .neg) | .op (.unary .not) => 7
  | .op (.binary head) => Term.bindingOf head
  | _ => Term.tight

/-- How to write the operand at a position, inside so many parentheses: its document and the position
after it. -/
abbrev Writer := Nat → UInt8 → Option (Term.Styled × Nat)

namespace Writer

open Term (Styled styled applied infixed parens operandBindings bindingOf)

def operand (nodes : Array Node) (write : Writer) (least : Nat) : Writer := fun pos depth => do
  let node ← nodes[pos]?
  if node.binding < least then
    let (d, stop) ← write pos (depth + 1)
    return (.group (parens depth d), stop)
  else write pos depth

def delayed (nodes : Array Node) (write : Writer) : Writer := fun pos depth =>
  match Span.at? nodes pos with
  | .error _ => none
  | .ok span => do
    let (d, _) ← write span.bodyStart depth
    return (d, span.stop)

def listed (write : Writer) (name : Styled) (count : Nat) : Writer := fun pos depth => do
  let (args, pos) ← readRow (fun pos => write pos (depth + 1)) count pos
  return (applied name depth args, pos)

def signed (nodes : Array Node) (write : Writer) (sign : String) : Writer := fun pos depth => do
  let (d, pos) ← operand nodes write 7 pos depth
  return (styled .operator sign ++ d, pos)

def binary (nodes : Array Node) (write : Writer) (op : BinaryOp) : Writer := fun pos depth =>
  match op.symbol? with
  | some symbol => do
    let (lhs, pos) ← operand nodes write (operandBindings op).1 pos depth
    let (rhs, pos) ← operand nodes write (operandBindings op).2 pos depth
    return (infixed symbol lhs rhs, pos)
  | none => listed write (styled .function (Term.callName op)) 2 pos depth

def branch (nodes : Array Node) (write : Writer) : Writer := fun pos depth => do
  let (c, pos) ← write pos (depth + 1)
  let (yes, pos) ← delayed nodes write pos (depth + 1)
  let (no, pos) ← delayed nodes write pos (depth + 1)
  return (applied (styled .keyword "if") depth [c, yes, no], pos)

def loop (nodes : Array Node) (write : Writer) (kind : Fold) : Writer := fun pos depth => do
  let (name, pos) ← write pos (depth + 1)
  let (lower, pos) ← write pos (depth + 1)
  let (upper, pos) ← write pos (depth + 1)
  let (body, pos) ← delayed nodes write pos (depth + 1)
  return (applied (styled .keyword (Term.foldKeyword kind)) depth [name, lower, upper, body], pos)

end Writer

namespace Expression

open Term (styled)

def documentFrom (env : Environment) (nodes : Array Node) : Nat → Writer
  | 0, _, _ => none
  | limit + 1, pos, depth =>
    match nodes[pos]? with
    | none => none
    | some (.literal x) => some (styled .number (expressionNumber x.value), pos + 1)
    | some (.ref address) => some (styled .ident (Term.variableName env address), pos + 1)
    | some (.arg index) => some (styled .ident ("_" ++ toString index), pos + 1)
    | some (.opening _) | some (.closing _) => none
    | some (.call f argc) =>
      (documentFrom env nodes limit).listed (styled .function (Term.functionName env f)) argc.toNat
        (pos + 1) depth
    | some (.op (.unary .neg)) => (documentFrom env nodes limit).signed nodes "-" (pos + 1) depth
    | some (.op (.unary .not)) => (documentFrom env nodes limit).signed nodes "!" (pos + 1) depth
    | some (.op (.unary op)) =>
      (documentFrom env nodes limit).listed (styled .function op.name) 1 (pos + 1) depth
    | some (.op (.binary op)) => (documentFrom env nodes limit).binary nodes op (pos + 1) depth
    | some (.op .branch) => (documentFrom env nodes limit).branch nodes (pos + 1) depth
    | some (.op (.fold kind)) => (documentFrom env nodes limit).loop nodes kind (pos + 1) depth

/-- The document of the operand at a position; it starts behind its head, so the size bounds how deep
its operands are. -/
def documentAt (env : Environment) (nodes : Array Node) : Writer :=
  documentFrom env nodes (nodes.size + 1)

/-- The document of an expression; one word if it is null or fails the check. -/
def document (e : Expression) (env : Environment) : Document Style :=
  if e.isNull then .text .keyword "null"
  else
    match e.check, documentAt env e.nodes 0 0 with
    | .ok _, some (d, _) => d
    | _, _ => .text .keyword "<malformed>"

def prettyBy (R : Renderer Style) (e : Expression) (env : Environment) (width : Nat) : String :=
  R width (e.document env)

def pretty (e : Expression) (env : Environment) (width : Nat) : String :=
  e.prettyBy Document.renderer env width

def prettyColored (e : Expression) (env : Environment) (width : Nat) : String :=
  Piece.renderAll Style.colored ((e.document env).layout width)

def anyWidth : Nat := 4294967295

def textBy (R : Renderer Style) (e : Expression) (env : Environment) : String :=
  e.prettyBy R env anyWidth

def text (e : Expression) (env : Environment) : String :=
  e.textBy Document.renderer env

end Expression

end PrefixCalculus
