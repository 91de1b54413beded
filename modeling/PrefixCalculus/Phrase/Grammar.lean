import PrefixCalculus.Phrase
import PrefixCalculus.Phrase.Token
set_option autoImplicit false

/-!
The grammar of phrases, layer by layer. A chain of one layer is left-nested and its operands are of
the next tighter layer; the tightest operands are prefix phrases, below them are powers, whose
exponent may be a prefix phrase again, and atoms. Each rule says which tokens denote which phrase, and
nothing about how they are read.
-/

namespace PrefixCalculus

namespace Phrase

mutual

/-- Tokens that denote a chain of the first of the layers, or of a tighter one. -/
inductive IsChain : List (List BinaryOp) → List Token → Phrase → Prop
  | tightest {ts : List Token} {p : Phrase} (h : IsPrefixed ts p) : IsChain [] ts p
  | single {ops : List BinaryOp} {tighter : List (List BinaryOp)} {ts : List Token} {p : Phrase}
      (h : IsChain tighter ts p) : IsChain (ops :: tighter) ts p
  | join {ops : List BinaryOp} {tighter : List (List BinaryOp)} {ts us : List Token} {p q : Phrase}
      {op : BinaryOp} (hop : op ∈ ops) (hp : IsChain (ops :: tighter) ts p)
      (hq : IsChain tighter us q) :
      IsChain (ops :: tighter) (ts ++ .sign op :: us) (.binary op p q)

inductive IsPrefixed : List Token → Phrase → Prop
  | neg {ts : List Token} {p : Phrase} (h : IsPrefixed ts p) :
      IsPrefixed (.sign .sub :: ts) (.neg p)
  | not {ts : List Token} {p : Phrase} (h : IsPrefixed ts p) : IsPrefixed (.bang :: ts) (.not p)
  | power {ts : List Token} {p : Phrase} (h : IsPower ts p) : IsPrefixed ts p

inductive IsPower : List Token → Phrase → Prop
  | atom {ts : List Token} {p : Phrase} (h : IsAtom ts p) : IsPower ts p
  | raised {ts us : List Token} {p q : Phrase} (hp : IsAtom ts p) (hq : IsPrefixed us q) :
      IsPower (ts ++ .sign .power :: us) (.binary .power p q)

inductive IsAtom : List Token → Phrase → Prop
  | number (value : Float) : IsAtom [.number value] (.number value)
  | name (s : String) : IsAtom [.name s] (.name s)
  | noArgs (s : String) : IsAtom [.name s, .lparen, .rparen] (.call s [])
  | call {ts : List Token} {ps : List Phrase} (s : String) (h : IsArgs ts ps) :
      IsAtom (.name s :: .lparen :: (ts ++ [.rparen])) (.call s ps)
  | group {ts : List Token} {p : Phrase} (h : IsChain levels ts p) :
      IsAtom (.lparen :: (ts ++ [.rparen])) p

inductive IsArgs : List Token → List Phrase → Prop
  | one {ts : List Token} {p : Phrase} (h : IsChain levels ts p) : IsArgs ts [p]
  | more {ts us : List Token} {p : Phrase} {ps : List Phrase} (hp : IsChain levels ts p)
      (hps : IsArgs us ps) : IsArgs (ts ++ .comma :: us) (p :: ps)

end

def Denotes (ts : List Token) (p : Phrase) : Prop :=
  IsChain levels ts p

theorem IsChain.loosen {tighter : List (List BinaryOp)} {ts : List Token} {p : Phrase}
    (h : IsChain tighter ts p) : ∀ looser : List (List BinaryOp), IsChain (looser ++ tighter) ts p
  | [] => h
  | _ :: looser => .single (h.loosen looser)

theorem IsPrefixed.denotes {ts : List Token} {p : Phrase} (h : IsPrefixed ts p) : Denotes ts p := by
  simpa [Denotes] using (IsChain.tightest h).loosen levels

theorem IsAtom.denotes {ts : List Token} {p : Phrase} (h : IsAtom ts p) : Denotes ts p :=
  IsPrefixed.denotes (.power (.atom h))

end Phrase

end PrefixCalculus
