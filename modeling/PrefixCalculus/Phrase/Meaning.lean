import PrefixCalculus.Environment
import PrefixCalculus.Numeric.Special
import PrefixCalculus.Phrase.Parsing
import PrefixCalculus.Phrase.Reader
set_option autoImplicit false

/-!
The expressions that phrases stand for. Names become parameters, constants or variables, and a new
variable is given an address on the way. A part without a meaning leaves a diagnostic and gives null,
and the reading goes on, so that names behind it still get their addresses.
-/

namespace PrefixCalculus

/-- The parameters that names may stand for; only in the body of a function do they have positions. -/
structure Scope where
  params : List String
  inFunction : Bool

/-- What reading has left behind: the environment, the diagnostics in reverse, and the first call of
an unknown function. -/
structure Reading where
  env : Environment
  diagnostics : List Diagnostic
  unknown : Option String

namespace Reading

def start (env : Environment) : Reading :=
  ⟨env, [], none⟩

def refuse (r : Reading) (d : Diagnostic) : Expression × Reading :=
  (Expression.null, { r with diagnostics := d :: r.diagnostics })

def resolve (r : Reading) (name : String) : Address × Reading :=
  let (a, env) := r.env.resolve name
  (a, { r with env })

/-- Leave an unknown function; from the second on they are diagnostics. -/
def refuseFunction (r : Reading) (name : String) : Expression × Reading :=
  match r.unknown with
  | none => (Expression.null, { r with unknown := some name })
  | some _ => r.refuse (.unknownFunction name)

def error? (r : Reading) : Option TextError :=
  match r.unknown, r.diagnostics.reverse with
  | none, [] => none
  | none, ds => some (.diagnostics ds)
  | some name, [] => some (.unknownFunction name)
  | some name, ds => some (.diagnostics (ds ++ [.unknownFunction name]))

end Reading

namespace Phrase

def position? (name : String) : Option UInt32 :=
  match name.toList with
  | '_' :: ds =>
    if ds.isEmpty || !ds.all Decimal.isDigit then none
    else
      let n := Decimal.ofDigits ds
      if n < UInt32.size then some (UInt32.ofNat n) else none
  | _ => none

def namedConstant? : String → Option Float
  | "pi" => some pi
  | "e" => some euler
  | "nan" => some nan
  | "inf" => some infinity
  | _ => none

def meaningOfFreeName (name : String) (r : Reading) : Expression × Reading :=
  match namedConstant? name with
  | some value => (.const value, r)
  | none =>
    let (a, r) := r.resolve name
    (.var a, r)

def meaningOfName (scope : Scope) (name : String) (r : Reading) : Expression × Reading :=
  match scope.params.idxOf? name with
  | some i => (.arg (UInt32.ofNat i), r)
  | none =>
    match if scope.inFunction then position? name else none with
    | some i =>
      if i.toNat < scope.params.length then (.arg i, r)
      else r.refuse (.parameterRange i scope.params.length)
    | none => meaningOfFreeName name r

def foldNamed? : String → Option Fold
  | "sum" => some .sum
  | "prod" => some .product
  | _ => none

def operatorNamed? (name : String) : Option Operator :=
  match Operator.ofName? name with
  | some (.unary op) => some (.unary op)
  | some (.binary op) => some (.binary op)
  | _ => none

mutual

def meaning (scope : Scope) : Phrase → Reading → Expression × Reading
  | number value, r => (.const value, r)
  | name s, r => meaningOfName scope s r
  | neg (number value), r => (.const (-value), r)
  | neg p, r =>
    let (e, r) := p.meaning scope r
    (.unary .neg e, r)
  | not p, r =>
    let (e, r) := p.meaning scope r
    (.unary .not e, r)
  | error, r => (Expression.null, r)
  | binary op a b, r =>
    let (a, r) := a.meaning scope r
    let (b, r) := b.meaning scope r
    (.binary op a b, r)
  | call "if" [c, a, b], r =>
    let (c, r) := c.meaning scope r
    let (a, r) := a.meaning scope r
    let (b, r) := b.meaning scope r
    (.branch c a b, r)
  | call "log" [x], r =>
    let (x, r) := x.meaning scope r
    (.unary .log10 x, r)
  | call "log" [x, base], r =>
    let (x, r) := x.meaning scope r
    let (base, r) := base.meaning scope r
    (.binary .logBase x base, r)
  | call f args, r =>
    match foldNamed? f, args with
    | some kind, [first, lower, upper, body] =>
      match first with
      | name v =>
        if scope.params.contains v then r.refuse (.shadowedParameter v)
        else
          let (a, r) := r.resolve v
          let (lower, r) := lower.meaning scope r
          let (upper, r) := upper.meaning scope r
          let (body, r) := body.meaning scope r
          (.loop kind a lower upper body, r)
      | _ => r.refuse (.loopVariable f)
    | some _, args => r.refuse (.argumentCount f 4 args.length)
    | none, args =>
      if f = "if" then r.refuse (.argumentCount f 3 args.length)
      else if f = "log" then r.refuse (.logarithmCount args.length)
      else
        match operatorNamed? f with
        | some op =>
          if args.length = op.arity then
            let (es, r) := meanings scope args r
            (.operation op es, r)
          else r.refuse (.argumentCount f op.arity args.length)
        | none =>
          match r.env.functionId? f with
          | none => r.refuseFunction f
          | some id =>
            let argc := ((r.env.function? id).map Function.argc).getD 0
            if args.length = argc.toNat then
              let (es, r) := meanings scope args r
              (.call id es, r)
            else r.refuse (.argumentCount f argc.toNat args.length)

def meanings (scope : Scope) : List Phrase → Reading → List Expression × Reading
  | [], r => ([], r)
  | p :: ps, r =>
    let (e, r) := p.meaning scope r
    let (es, r) := meanings scope ps r
    (e :: es, r)

end

theorem meaning_operation {op : Operator} (hop : operatorNamed? op.name = some op) (scope : Scope)
    (args : List Phrase) (hargs : args.length = op.arity) (r : Reading) :
    (call op.name args).meaning scope r
      = (.operation op (meanings scope args r).1, (meanings scope args r).2) := by
  have hif : op.name ≠ "if" := by rintro h; rw [h] at hop; cases hop
  have hlog : op.name ≠ "log" := by rintro h; rw [h] at hop; cases hop
  have hfold : foldNamed? op.name = none := by
    unfold foldNamed?
    split
    · rename_i h; rw [h] at hop; cases hop
    · rename_i h; rw [h] at hop; cases hop
    · rfl
  simp [meaning, hfold, hif, hlog, hop, hargs]

end Phrase

def tokensOf (text : String) : Except TextError (List Token) :=
  match Token.ofText text with
  | .ok ts => .ok ts
  | .error found => .error (.diagnostics [.scanning found])

def phraseOf (ts : List Token) : Except TextError Phrase :=
  reader.readPhrase ts

namespace Environment

/-- The expression of a text. Names that are new get addresses, also when the text has no meaning as
a whole; a text that is no phrase changes nothing. -/
def parseBy (C : Combinators) (env : Environment) (text : String) :
    Except TextError Expression × Environment :=
  match tokensOf text >>= C.readPhrase with
  | .error e => (.error e, env)
  | .ok p =>
    let (e, r) := p.meaning ⟨[], false⟩ (.start env)
    match r.error? with
    | some error => (.error error, r.env)
    | none => (.ok e, r.env)

def parse (env : Environment) (text : String) : Except TextError Expression × Environment :=
  env.parseBy reader text

end Environment

end PrefixCalculus
