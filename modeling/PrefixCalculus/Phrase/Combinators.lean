import PrefixCalculus.Phrase.Token
set_option autoImplicit false

/-!
Parsers of tokens, put together from smaller ones. What the operations do is said of the outcome of a
parser at the front of tokens: a value and the tokens after it, or none. A parser that goes on behind
something wrong has recorded it.
-/

namespace PrefixCalculus

/-- What was found where nothing fits, `none` for the end. -/
abbrev Fault := Option Token

inductive Outcome (α : Type)
  | ok (value : α) (rest : List Token) (recorded : Bool)
  | fail

structure Combinators where
  Parser : Type → Type
  run : {α : Type} → Parser α → List Token → Outcome α
  /-- All tokens, with the value if there is one and everything that was found wrong. -/
  parse : {α : Type} → Parser α → List Token → Option α × List Fault
  just : Token → Parser Token
  select : {α : Type} → (Token → Option α) → Parser α
  finish : Parser Unit
  map : {α β : Type} → (α → β) → Parser α → Parser β
  seq : {α β : Type} → Parser α → Parser β → Parser (α × β)
  choice : {α : Type} → List (Parser α) → Parser α
  orNot : {α : Type} → Parser α → Parser (Option α)
  /-- A first part and any number of links that go on with it. -/
  foldl : {α β : Type} → Parser α → Parser β → (α → β → α) → Parser α
  separatedBy : {α β : Type} → Parser α → Parser β → Parser (List α)
  recoverWith : {α : Type} → Parser α → Parser α → Parser α
  /-- Skip what stands between delimiters; the value stands for it. -/
  nestedDelimiters : {α : Type} → Token → Token → α → Parser α
  labelled : {α : Type} → String → Parser α → Parser α
  recursive : {α : Type} → (Parser α → Parser α) → Parser α

namespace Combinators

variable (C : Combinators) {α β : Type}

def mapConst (value : β) (p : C.Parser α) : C.Parser β :=
  C.map (fun _ => value) p

def ignoreThen (p : C.Parser α) (q : C.Parser β) : C.Parser β :=
  C.map Prod.snd (C.seq p q)

def thenIgnore (p : C.Parser α) (q : C.Parser β) : C.Parser α :=
  C.map Prod.fst (C.seq p q)

def delimitedBy (p : C.Parser α) (start stop : Token) : C.Parser α :=
  C.ignoreThen (C.just start) (C.thenIgnore p (C.just stop))

end Combinators

end PrefixCalculus
