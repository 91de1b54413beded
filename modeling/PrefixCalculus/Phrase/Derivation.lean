import PrefixCalculus.Phrase
import PrefixCalculus.Phrase.Token
set_option autoImplicit false

/-!
Derivations of phrases, as trees. A chain of one layer is an operand of the next tighter layer and
any number of links, each a sign of the layer and one more operand; behind the tightest layer stand
prefix phrases, powers and atoms. A derivation knows the tokens that it derives and the phrase that
they denote: chains group to the left, a power takes a whole prefix phrase as its exponent, and a
prefix sign takes a whole power.
-/

namespace PrefixCalculus

namespace Phrase

mutual

/-- A chain of the first of the layers; without layers a prefix phrase. -/
inductive Chain : List (List BinaryOp) → Type
  | prefixed (d : Prefixed) : Chain []
  | chain {ops : List BinaryOp} {tighter : List (List BinaryOp)} (first : Chain tighter)
    (links : Links ops tighter) : Chain (ops :: tighter)

inductive Links : List BinaryOp → List (List BinaryOp) → Type
  | done {ops : List BinaryOp} {tighter : List (List BinaryOp)} : Links ops tighter
  | link {ops : List BinaryOp} {tighter : List (List BinaryOp)} (op : BinaryOp) (hop : op ∈ ops)
    (operand : Chain tighter) (links : Links ops tighter) : Links ops tighter

inductive Prefixed : Type
  | neg (d : Prefixed)
  | not (d : Prefixed)
  | power (d : Power)

inductive Power : Type
  | atom (d : Atom)
  | raised (base : Atom) (exponent : Prefixed)

inductive Atom : Type
  | number (value : Float)
  | name (s : String)
  | noArgs (s : String)
  | call (s : String) (args : Arguments)
  | group (d : Chain levels)

inductive Arguments : Type
  | one (d : Chain levels)
  | more (d : Chain levels) (args : Arguments)

end

/-! The tokens that are derived -/

mutual

def Chain.tokens : {layers : List (List BinaryOp)} → Chain layers → List Token
  | _, .prefixed d => d.tokens
  | _, .chain first links => first.tokens ++ links.tokens

def Links.tokens : {ops : List BinaryOp} → {tighter : List (List BinaryOp)} →
    Links ops tighter → List Token
  | _, _, .done => []
  | _, _, .link op _ operand links => .sign op :: (operand.tokens ++ links.tokens)

def Prefixed.tokens : Prefixed → List Token
  | .neg d => .sign .sub :: d.tokens
  | .not d => .bang :: d.tokens
  | .power d => d.tokens

def Power.tokens : Power → List Token
  | .atom d => d.tokens
  | .raised base exponent => base.tokens ++ .sign .power :: exponent.tokens

def Atom.tokens : Atom → List Token
  | .number value => [.number value]
  | .name s => [.name s]
  | .noArgs s => [.name s, .lparen, .rparen]
  | .call s args => .name s :: .lparen :: (args.tokens ++ [.rparen])
  | .group d => .lparen :: (d.tokens ++ [.rparen])

def Arguments.tokens : Arguments → List Token
  | .one d => d.tokens
  | .more d args => d.tokens ++ .comma :: args.tokens

end

/-! The phrase that they denote -/

mutual

def Chain.phrase : {layers : List (List BinaryOp)} → Chain layers → Phrase
  | _, .prefixed d => d.phrase
  | _, .chain first links => links.onto first.phrase

def Links.onto : {ops : List BinaryOp} → {tighter : List (List BinaryOp)} →
    Links ops tighter → Phrase → Phrase
  | _, _, .done, lhs => lhs
  | _, _, .link op _ operand links, lhs => links.onto (.binary op lhs operand.phrase)

def Prefixed.phrase : Prefixed → Phrase
  | .neg d => .neg d.phrase
  | .not d => .not d.phrase
  | .power d => d.phrase

def Power.phrase : Power → Phrase
  | .atom d => d.phrase
  | .raised base exponent => .binary .power base.phrase exponent.phrase

def Atom.phrase : Atom → Phrase
  | .number value => .number value
  | .name s => .name s
  | .noArgs s => .call s []
  | .call s args => .call s args.phrases
  | .group d => d.phrase

def Arguments.phrases : Arguments → List Phrase
  | .one d => [d.phrase]
  | .more d args => d.phrase :: args.phrases

end

abbrev Derivation : Type := Chain levels

end Phrase

end PrefixCalculus
