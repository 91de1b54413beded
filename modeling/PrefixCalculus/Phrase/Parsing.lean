import PrefixCalculus.Phrase
import PrefixCalculus.Phrase.Combinators
import PrefixCalculus.Phrase.Diagnostic
set_option autoImplicit false

/-!
The parser of phrases and that of definitions, for any combinators. A text is accepted only if nothing
was found wrong with it.
-/

namespace PrefixCalculus

structure Heading where
  name : String
  params : List String
  deriving DecidableEq

namespace Combinators

variable (C : Combinators)

def number : C.Parser Phrase :=
  C.labelled "number" <| C.select fun
    | .number value => some (.number value)
    | _ => none

def name : C.Parser String :=
  C.labelled "identifier" <| C.select fun
    | .name s => some s
    | _ => none

def sign (op : BinaryOp) : C.Parser BinaryOp :=
  C.mapConst op (C.just (.sign op))

section

variable (phrase : C.Parser Phrase)

def arguments : C.Parser (List Phrase) :=
  C.labelled "arguments" <| C.delimitedBy (C.separatedBy phrase (C.just .comma)) .lparen .rparen

def group : C.Parser Phrase :=
  C.labelled "parentheses" <| C.recoverWith (C.delimitedBy phrase .lparen .rparen)
    (C.nestedDelimiters .lparen .rparen .error)

def named : String × Option (List Phrase) → Phrase
  | (name, some args) => .call name args
  | (name, none) => .name name

def atom : C.Parser Phrase :=
  C.labelled "atom" <| C.choice
    [C.number, C.map named (C.seq C.name (C.orNot (C.arguments phrase))), C.group phrase]

end

def raised : Phrase × Option Phrase → Phrase
  | (base, some exponent) => .binary .power base exponent
  | (base, none) => base

section

variable (atom : C.Parser Phrase)

def signed (prefixed : C.Parser Phrase) : C.Parser Phrase :=
  C.map (fun (make, operand) => make operand) <|
    C.seq (C.choice [C.mapConst Phrase.neg (C.just (.sign .sub)),
      C.mapConst Phrase.not (C.just .bang)]) prefixed

def power (prefixed : C.Parser Phrase) : C.Parser Phrase :=
  C.map raised <| C.seq atom (C.orNot (C.ignoreThen (C.just (.sign .power)) prefixed))

/-- Prefix signs bind looser than powers, which group to the right. -/
def prefixedBody (prefixed : C.Parser Phrase) : C.Parser Phrase :=
  C.choice [C.signed prefixed, C.power atom prefixed]

def prefixed : C.Parser Phrase :=
  C.recursive (C.prefixedBody atom)

end

def infixed (lhs : Phrase) : BinaryOp × Phrase → Phrase
  | (op, rhs) => .binary op lhs rhs

def chain (prefixed : C.Parser Phrase) : List (List BinaryOp) → C.Parser Phrase
  | [] => prefixed
  | ops :: tighter =>
    let operand := chain prefixed tighter
    C.foldl operand (C.seq (C.choice (ops.map C.sign)) operand) infixed

def phraseBody (phrase : C.Parser Phrase) : C.Parser Phrase :=
  C.labelled "expression" <| C.chain (C.prefixed (C.atom phrase)) Phrase.levels

def phrase : C.Parser Phrase :=
  C.recursive C.phraseBody

def parameters : C.Parser (List String) :=
  C.labelled "parameters" <| C.delimitedBy (C.separatedBy C.name (C.just .comma)) .lparen .rparen

def heading : C.Parser Heading :=
  C.map (fun (name, params) => ⟨name, params⟩) (C.seq C.name C.parameters)

def definition : C.Parser (Heading × Phrase) :=
  C.seq (C.thenIgnore C.heading (C.just .assign)) C.phrase

/-- What all the tokens are, if nothing was found wrong. -/
def accept {α : Type} (p : C.Parser α) (ts : List Token) : Except TextError α :=
  match C.parse (C.thenIgnore p C.finish) ts with
  | (some a, []) => .ok a
  | (_, faults) => .error (.diagnostics (faults.map .reading))

def readPhrase (ts : List Token) : Except TextError Phrase :=
  C.accept C.phrase ts

def readDefinition (ts : List Token) : Except TextError (Heading × Phrase) :=
  C.accept C.definition ts

end Combinators

end PrefixCalculus
