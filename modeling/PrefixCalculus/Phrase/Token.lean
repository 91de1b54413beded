import PrefixCalculus.Decimal.Reading
import PrefixCalculus.Decimal.Text
import PrefixCalculus.Operator
import PrefixCalculus.Text.Blank
set_option autoImplicit false

/-!
The tokens of infix text. Every token is the longest that its rule can take: a number has a fraction
or an exponent only if digits follow. When no rule takes the next character, the text is refused at
the place that some rule came furthest to.
-/

namespace PrefixCalculus

inductive Token
  | number (value : Float)
  | name (s : String)
  /-- The sign of an operator between two operands; the minus also stands before one. -/
  | sign (op : BinaryOp)
  | bang
  | lparen
  | rparen
  | comma
  | assign
  deriving DecidableEq, Inhabited

namespace Token

def text : Token → String
  | number value => positionalText value
  | name s => s
  | sign op => op.symbol?.getD ""
  | bang => "!"
  | lparen => "("
  | rparen => ")"
  | comma => ","
  | assign => "="

def isNameStart (c : Char) : Bool :=
  ('a' ≤ c && c ≤ 'z') || ('A' ≤ c && c ≤ 'Z') || c == '_'

def isNamePart (c : Char) : Bool :=
  isNameStart c || Decimal.isDigit c

/-- A token, the text after it, and the text from the place where its rule stopped hoping. -/
structure Scanned where
  token : Token
  rest : List Char
  reach : List Char

def scanFraction (cs : List Char) : List Char × List Char × List Char :=
  match Decimal.takeFraction? cs with
  | some (ds, rest) => (ds, rest, rest)
  | none =>
    match cs with
    | '.' :: rest => ([], cs, rest)
    | _ => ([], cs, cs)

def scanExponent (cs : List Char) : Int × List Char × List Char :=
  match Decimal.takeExponent? cs with
  | some (exponent, rest) => (exponent, rest, rest)
  | none =>
    match cs with
    | 'e' :: rest | 'E' :: rest => (0, cs, (Decimal.takeSign rest).2)
    | _ => (0, cs, cs)

def further (a b : List Char) : List Char :=
  if b.length < a.length then b else a

def scanNumber (cs : List Char) : Scanned :=
  let (whole, cs) := Decimal.spanDigits cs
  let (fraction, cs, reach₁) := scanFraction cs
  let (exponent, cs, reach₂) := scanExponent cs
  ⟨number (Decimal.toFloat whole fraction exponent), cs, further reach₁ reach₂⟩

def scanSign? : List Char → Option (Token × List Char)
  | '|' :: '|' :: cs => some (sign .or, cs)
  | '&' :: '&' :: cs => some (sign .and, cs)
  | '=' :: '=' :: cs => some (sign .eq, cs)
  | '!' :: '=' :: cs => some (sign .ne, cs)
  | '<' :: '=' :: cs => some (sign .le, cs)
  | '>' :: '=' :: cs => some (sign .ge, cs)
  | '<' :: cs => some (sign .lt, cs)
  | '>' :: cs => some (sign .gt, cs)
  | '+' :: cs => some (sign .add, cs)
  | '-' :: cs => some (sign .sub, cs)
  | '*' :: cs => some (sign .mul, cs)
  | '/' :: cs => some (sign .div, cs)
  | '%' :: cs => some (sign .mod, cs)
  | '^' :: cs => some (sign .power, cs)
  | '!' :: cs => some (bang, cs)
  | '=' :: cs => some (assign, cs)
  | '(' :: cs => some (lparen, cs)
  | ')' :: cs => some (rparen, cs)
  | ',' :: cs => some (comma, cs)
  | _ => none

def scan? (cs : List Char) : Option Scanned :=
  match cs with
  | [] => none
  | c :: rest =>
    if Decimal.isDigit c then some (scanNumber cs)
    else if isNameStart c then
      let (part, rest) := rest.span isNamePart
      some ⟨name (String.ofList (c :: part)), rest, rest⟩
    else (scanSign? cs).map fun (t, rest) => ⟨t, rest, rest⟩

/-- How far the rules come in a text that starts with no token: half a double sign is a beginning. -/
def obstacle : List Char → List Char
  | '&' :: cs => cs
  | '|' :: cs => cs
  | cs => cs

def scanFrom : Nat → List Char → List Char → List Token → Except (Option Char) (List Token)
  | 0, _, _, found => .ok found.reverse
  | left + 1, cs, reach, found =>
    match Text.skipBlanks cs with
    | [] => .ok found.reverse
    | c :: cs =>
      match scan? (c :: cs) with
      | some s => scanFrom left s.rest (further reach s.reach) (s.token :: found)
      | none => .error (further reach (obstacle (c :: cs))).head?

/-- The tokens of a text, or what was found where none could go on, `none` for the end. A text of
blanks alone is refused at its end, the empty text is not. -/
def ofText (text : String) : Except (Option Char) (List Token) :=
  let cs := text.toList
  if !cs.isEmpty && cs.all Text.isBlank then .error none
  else scanFrom (cs.length + 1) cs cs []

end Token

end PrefixCalculus
