import PrefixCalculus.Phrase.Definition
import PrefixCalculus.Proofs.Encoding
import PrefixCalculus.Proofs.PhraseMeaning
import PrefixCalculus.Proofs.PrintedNumbers
import PrefixCalculus.Proofs.Rendering
set_option autoImplicit false

/-!
The tokens that a term is printed as, and the phrase that they denote. Main statements: parentheses
stand wherever the grammar asks for them, and the printed text falls into these tokens however it is
laid out.
-/

namespace PrefixCalculus

/-! What is printed -/

namespace Token

def enclosed (tooLoose : Bool) (ts : List Token) : List Token :=
  if tooLoose then .lparen :: (ts ++ [.rparen]) else ts

def separated : List Token → List (List Token) → List Token
  | first, [] => first
  | first, next :: rest => first ++ .comma :: separated next rest

def applied (f : String) : List (List Token) → List Token
  | [] => [.name f, .lparen, .rparen]
  | first :: rest => .name f :: .lparen :: (separated first rest ++ [.rparen])

end Token

namespace Phrase

def ofUnsigned (x : Float) : Phrase :=
  if x.isNaN then .name "nan" else if x.isInf then .name "inf" else .number x

def ofNumber (x : Float) : Phrase :=
  if signBit x then .neg (ofUnsigned (-x)) else ofUnsigned x

end Phrase

namespace Term

mutual

def tokens (env : Environment) : Term → List Token
  | literal x => Token.ofNumber x.value
  | ref address => [.name (variableName env address)]
  | arg index => [.name ("_" ++ toString index)]
  | unary .neg t => .sign .sub :: Token.enclosed (t.binding < 7) (t.tokens env)
  | unary .not t => .bang :: Token.enclosed (t.binding < 7) (t.tokens env)
  | unary op t => Token.applied op.name [t.tokens env]
  | binary op a b =>
    match op.symbol? with
    | some _ =>
      Token.enclosed (a.binding < (operandBindings op).1) (a.tokens env)
        ++ .sign op :: Token.enclosed (b.binding < (operandBindings op).2) (b.tokens env)
    | none => Token.applied (callName op) [a.tokens env, b.tokens env]
  | branch c a b => Token.applied "if" [c.tokens env, a.tokens env, b.tokens env]
  | loop kind address lower upper body =>
    Token.applied (foldKeyword kind)
      [[.name (variableName env address)], lower.tokens env, upper.tokens env, body.tokens env]
  | call f args => Token.applied (functionName env f) (tokensAll env args)

def tokensAll (env : Environment) : List Term → List (List Token)
  | [] => []
  | t :: ts => t.tokens env :: tokensAll env ts

end

mutual

def phrase (env : Environment) : Term → Phrase
  | literal x => Phrase.ofNumber x.value
  | ref address => .name (variableName env address)
  | arg index => .name ("_" ++ toString index)
  | unary .neg t => .neg (t.phrase env)
  | unary .not t => .not (t.phrase env)
  | unary op t => .call op.name [t.phrase env]
  | binary op a b =>
    match op.symbol? with
    | some _ => .binary op (a.phrase env) (b.phrase env)
    | none => .call (callName op) [a.phrase env, b.phrase env]
  | branch c a b => .call "if" [c.phrase env, a.phrase env, b.phrase env]
  | loop kind address lower upper body =>
    .call (foldKeyword kind)
      [.name (variableName env address), lower.phrase env, upper.phrase env, body.phrase env]
  | call f args => .call (functionName env f) (phrases env args)

def phrases (env : Environment) : List Term → List Phrase
  | [] => []
  | t :: ts => t.phrase env :: phrases env ts

end

end Term

/-! The grammar of what is printed -/

namespace Phrase

/-- Tokens that denote a phrase and hold together with a strength. -/
def Binds (strength : Nat) (ts : List Token) (p : Phrase) : Prop :=
  if strength ≤ 7 then IsChain (levels.drop (strength - 1)) ts p
  else if strength = 8 then IsPower ts p
  else IsAtom ts p

namespace Binds

variable {strength least : Nat} {ts us : List Token} {p q : Phrase}

theorem of_isAtom (h : IsAtom ts p) (strength : Nat) : Binds strength ts p := by
  unfold Binds
  by_cases hchain : strength ≤ 7
  · rw [if_pos hchain]
    have h := (IsChain.tightest (.power (.atom h))).loosen (levels.drop (strength - 1))
    rwa [List.append_nil] at h
  · rw [if_neg hchain]
    by_cases hpower : strength = 8
    · rw [if_pos hpower]
      exact .atom h
    · rw [if_neg hpower]
      exact h

theorem of_isPower (h : IsPower ts p) (hle : strength ≤ 8) : Binds strength ts p := by
  unfold Binds
  by_cases hchain : strength ≤ 7
  · rw [if_pos hchain]
    have h := (IsChain.tightest (.power h)).loosen (levels.drop (strength - 1))
    rwa [List.append_nil] at h
  · rw [if_neg hchain, if_pos (by omega)]
    exact h

theorem of_isPrefixed (h : IsPrefixed ts p) (hle : strength ≤ 7) : Binds strength ts p := by
  unfold Binds
  rw [if_pos hle]
  have h := (IsChain.tightest h).loosen (levels.drop (strength - 1))
  rwa [List.append_nil] at h

theorem isPrefixed (h : Binds 7 ts p) : IsPrefixed ts p := by
  have h : IsChain [] ts p := h
  cases h with
  | tightest h => exact h

theorem loosen (h : Binds strength ts p) (hle : least ≤ strength) : Binds least ts p := by
  unfold Binds at h
  by_cases hchain : strength ≤ 7
  · rw [if_pos hchain] at h
    have hdrop : levels.drop (least - 1)
        = (levels.drop (least - 1)).take (strength - 1 - (least - 1)) ++ levels.drop (strength - 1) := by
      have hsum : least - 1 + (strength - 1 - (least - 1)) = strength - 1 := by omega
      have hsplit := List.take_append_drop (strength - 1 - (least - 1)) (levels.drop (least - 1))
      rw [List.drop_drop, hsum] at hsplit
      exact hsplit.symm
    unfold Binds
    rw [if_pos (by omega), hdrop]
    exact h.loosen _
  · rw [if_neg hchain] at h
    by_cases hpower : strength = 8
    · rw [if_pos hpower] at h
      exact of_isPower h (by omega)
    · rw [if_neg hpower] at h
      exact of_isAtom h least

theorem denotes (h : Binds strength ts p) : Denotes ts p :=
  h.loosen (Nat.zero_le strength)

/-- In parentheses where they are needed, tokens hold together as strongly as their place asks. -/
theorem enclosed (h : Binds strength ts p) (least : Nat) :
    Binds least (Token.enclosed (strength < least) ts) p := by
  by_cases hloose : strength < least
  · simp only [Token.enclosed, hloose, decide_true, if_true]
    exact of_isAtom (.group h.denotes) least
  · simp only [Token.enclosed, hloose, decide_false, Bool.false_eq_true, if_false]
    exact h.loosen (by omega)

end Binds

theorem isArgs_separated {rest : List (List Token)} {ps : List Phrase}
    (hrest : List.Forall₂ Denotes rest ps) : ∀ {first : List Token} {p : Phrase}, Denotes first p →
      IsArgs (Token.separated first rest) (p :: ps) := by
  induction hrest with
  | nil => exact fun hp => .one hp
  | cons hq _ ih => exact fun hp => .more hp (ih hq)

theorem isAtom_applied {f : String} {tss : List (List Token)} {ps : List Phrase}
    (h : List.Forall₂ Denotes tss ps) : IsAtom (Token.applied f tss) (.call f ps) := by
  cases h with
  | nil => exact .noArgs f
  | cons hp hps => exact .call f (isArgs_separated hps hp)

theorem isAtom_ofUnsigned (x : Float) : IsAtom [Token.ofUnsigned x] (ofUnsigned x) := by
  unfold Token.ofUnsigned ofUnsigned
  cases x.isNaN with
  | true => exact .name "nan"
  | false =>
    cases x.isInf with
    | true => exact .name "inf"
    | false => exact .number x

theorem exists_layer {op : BinaryOp} {sign : String} (hsign : op.symbol? = some sign)
    (hpower : op ≠ .power) : ∃ ops, op ∈ ops ∧
      levels.drop (Term.bindingOf op - 1) = ops :: levels.drop (Term.bindingOf op) ∧
      Term.bindingOf op ≤ 6 := by
  cases op with
  | power => exact absurd rfl hpower
  | logBase | max | min | choose | beta => cases hsign
  | _ => exact ⟨_, by decide, rfl, by decide⟩

theorem binds_binary {op : BinaryOp} {sign : String} {ts us : List Token} {p q : Phrase}
    (hsign : op.symbol? = some sign) (hp : Binds (Term.operandBindings op).1 ts p)
    (hq : Binds (Term.operandBindings op).2 us q) :
    Binds (Term.bindingOf op) (ts ++ .sign op :: us) (.binary op p q) := by
  by_cases hpower : op = .power
  · subst hpower
    have hp : IsAtom ts p := hp
    have hq : IsPower us q := hq
    exact .of_isPower (.raised hp (.power hq)) (Nat.le_refl 8)
  · obtain ⟨ops, hop, hlayer, hle⟩ := exists_layer hsign hpower
    rw [Term.operandBindings, if_neg hpower, Binds, if_pos (by omega), hlayer] at hp
    rw [Term.operandBindings, if_neg hpower, Binds, if_pos (by omega)] at hq
    rw [Binds, if_pos (by omega), hlayer]
    exact .join hop hp hq

end Phrase

theorem Literal.isNegative_of_signBit {x : Literal} (h : signBit x.value = true) :
    x.isNegative = true := by
  cases x with
  | number x => exact h
  | negativeNaN => rfl

namespace Term

open Phrase (Binds Denotes)

/-- The tokens of a term denote its phrase and hold together as the term does. -/
theorem binds_tokens (env : Environment) (t : Term) :
    Binds t.binding (t.tokens env) (t.phrase env) := by
  induction t using Term.induction with
  | literal x =>
    rw [tokens, phrase, Token.ofNumber, Phrase.ofNumber]
    cases hsign : signBit x.value with
    | true =>
      have hbinding : (literal x).binding = 7 := by
        rw [binding, Literal.isNegative_of_signBit hsign, if_pos rfl]
      rw [hbinding, if_pos rfl, if_pos rfl]
      exact .of_isPrefixed (.neg (.power (.atom (Phrase.isAtom_ofUnsigned _)))) (Nat.le_refl 7)
    | false =>
      rw [if_neg Bool.false_ne_true, if_neg Bool.false_ne_true]
      exact .of_isAtom (Phrase.isAtom_ofUnsigned x.value) _
  | ref a => exact .of_isAtom (.name _) _
  | arg i => exact .of_isAtom (.name _) _
  | unary op t ih =>
    cases op with
    | neg => exact .of_isPrefixed (.neg (ih.enclosed 7).isPrefixed) (Nat.le_refl 7)
    | not => exact .of_isPrefixed (.not (ih.enclosed 7).isPrefixed) (Nat.le_refl 7)
    | _ => exact .of_isAtom (Phrase.isAtom_applied (.cons ih.denotes .nil)) _
  | binary op a b iha ihb =>
    cases hsign : op.symbol? with
    | some sign =>
      simp only [tokens, phrase, binding, hsign]
      exact Phrase.binds_binary hsign (iha.enclosed _) (ihb.enclosed _)
    | none =>
      simp only [tokens, phrase, hsign]
      exact .of_isAtom (Phrase.isAtom_applied (.cons iha.denotes (.cons ihb.denotes .nil))) _
  | branch c a b ihc iha ihb =>
    exact .of_isAtom (Phrase.isAtom_applied
      (.cons ihc.denotes (.cons iha.denotes (.cons ihb.denotes .nil)))) _
  | loop kind v lower upper body ihl ihu ihb =>
    have hname : Denotes [.name (variableName env v)] (.name (variableName env v)) :=
      Phrase.IsAtom.denotes (.name _)
    exact .of_isAtom (Phrase.isAtom_applied
      (.cons hname (.cons ihl.denotes (.cons ihu.denotes (.cons ihb.denotes .nil))))) _
  | call f args ih =>
    have hargs : List.Forall₂ Denotes (tokensAll env args) (phrases env args) := by
      induction args with
      | nil => exact .nil
      | cons t ts ihs => exact .cons (ih t (by simp)).denotes (ihs fun u hu => ih u (by simp [hu]))
    exact .of_isAtom (Phrase.isAtom_applied hargs) _

theorem denotes_tokens (env : Environment) (t : Term) : Denotes (t.tokens env) (t.phrase env) :=
  (binds_tokens env t).denotes

end Term

/-! The tokens of a laid out document -/

/-- However it is laid out, the document falls into the tokens. -/
def Lexed (d : Term.Styled) (ts : List Token) : Prop :=
  ∀ cs, d.Renders cs → Token.Lexes cs ts

namespace Lexed

open Document Term

variable {d e : Styled} {ts us : List Token} {depth : UInt8}

theorem text {style : Style} {s : String} (h : Token.Lexes s.toList ts) : Lexed (styled style s) ts := by
  intro cs hcs
  rw [renders_text.1 hcs]
  exact h

theorem separated_of_head {c : Char} {cs : List Char} (h : Token.separates c = true) :
    Token.Separated (c :: cs) := by
  rintro d ⟨⟩
  exact h

theorem parens (h : Lexed d ts) : Lexed (Term.parens depth d) (.lparen :: (ts ++ [.rparen])) := by
  intro cs hcs
  obtain ⟨first, last, rfl, hfirst, hlast⟩ := renders_append.1 hcs
  obtain ⟨opening, inner, rfl, hopening, hinner⟩ := renders_append.1 hfirst
  rw [renders_text.1 hopening, renders_text.1 hlast]
  have hclose : Token.Lexes [')'] [.rparen] := .token (s := ⟨.rparen, [], []⟩) rfl .nil
  have hrest := (h inner hinner).append (separated_of_head (by decide)) hclose
  exact .token (s := ⟨.lparen, _, _⟩) rfl hrest

theorem enclosed {tooLoose : Bool} {d : UInt8 → Styled} (h : ∀ depth, Lexed (d depth) ts) :
    Lexed (Term.enclosed tooLoose depth d) (Token.enclosed tooLoose ts) := by
  cases tooLoose with
  | true =>
    intro cs hcs
    exact (h (depth + 1)).parens cs (renders_group.1 hcs)
  | false => exact h depth

theorem minus (h : Lexed d ts) : Lexed (styled .operator "-" ++ d) (.sign .sub :: ts) := by
  intro cs hcs
  obtain ⟨sign, inner, rfl, hsign, hinner⟩ := renders_append.1 hcs
  rw [renders_text.1 hsign]
  exact Token.lexes_minus (h inner hinner)

/-- An equals sign behind the mark would join it, but no phrase begins with one. -/
theorem bang (h : Lexed d ts) (hbegins : Phrase.Begins ts) :
    Lexed (styled .operator "!" ++ d) (.bang :: ts) := by
  intro cs hcs
  obtain ⟨sign, inner, rfl, hsign, hinner⟩ := renders_append.1 hcs
  rw [renders_text.1 hsign]
  have hlexes := h inner hinner
  have hequals : ∀ tail, inner ≠ '=' :: tail := by
    rintro tail rfl
    rcases hbegins with ⟨t, us, rfl, ⟨x, rfl⟩ | ⟨s, rfl⟩ | rfl⟩ | ⟨us, rfl | rfl⟩ <;>
      simpa using hlexes.head_of_equals
  have hs : Token.scan? ('!' :: inner) = some ⟨.bang, inner, inner⟩ := by
    have hsign := Token.scanSign?_short (c := '!') (t := .bang) (by simp) hequals
    change (Token.scanSign? ('!' :: inner)).map _ = _
    rw [hsign]
    rfl
  exact .token hs hlexes

theorem intersperse {tss : List (List Token)} {ds : List Styled} (hds : List.Forall₂ Lexed ds tss) :
    ∀ {d : Styled} {ts : List Token}, Lexed d ts →
      Lexed (Document.intersperse (styled .punctuation "," ++ Document.line) d ds)
        (Token.separated ts tss) := by
  induction hds with
  | nil => exact fun h => h
  | cons he _ ih =>
    intro d ts h cs hcs
    obtain ⟨first, behind, rfl, hfirst, hbehind⟩ := renders_append.1 hcs
    obtain ⟨separator, rest, rfl, hseparator, hrest⟩ := renders_append.1 hbehind
    obtain ⟨comma, line, rfl, hcomma, hline⟩ := renders_append.1 hseparator
    rw [renders_text.1 hcomma]
    have hblanks : ∀ c ∈ line, Text.isBlank c = true := by
      rcases renders_line.1 hline with rfl | ⟨indent, rfl⟩
      · exact List.forall_mem_singleton.2 (by decide)
      · intro c hc
        rcases List.mem_cons.1 hc with rfl | hc
        · decide
        · rw [List.eq_of_mem_replicate hc]
          decide
    have hlexes := (ih he rest hrest).blanks hblanks
    exact (h first hfirst).append (separated_of_head (by decide))
      (.token (s := ⟨.comma, _, _⟩) rfl hlexes)

theorem applied {f : String} {style : Style} {ds : List Styled} {tss : List (List Token)}
    (hf : Token.isIdentifier f = true) (hds : List.Forall₂ Lexed ds tss) :
    Lexed (Term.applied (styled style f) depth ds) (Token.applied f tss) := by
  have hname : Lexed (styled style f) [.name f] := text (Token.lexes_name hf)
  cases hds with
  | nil =>
    intro cs hcs
    obtain ⟨first, behind, rfl, hfirst, hbehind⟩ := renders_append.1 (renders_group.1 hcs)
    obtain ⟨opening, closing, rfl, hopening, hclosing⟩ := renders_append.1 hbehind
    rw [renders_text.1 hopening, renders_text.1 hclosing]
    exact (hname first hfirst).append (separated_of_head (by decide))
      (.token (s := ⟨.lparen, _, _⟩) rfl (.token (s := ⟨.rparen, _, _⟩) rfl .nil))
  | cons h hds =>
    intro cs hcs
    obtain ⟨first, behind, rfl, hfirst, hbehind⟩ := renders_append.1 (renders_group.1 hcs)
    have hargs : Lexed (.nest 2 (Document.intersperse _ _ _)) _ :=
      fun cs hcs => intersperse hds h cs (renders_nest.1 hcs)
    have hlexes := hargs.parens behind hbehind
    have hparen : ∃ tail, behind = '(' :: tail := by
      obtain ⟨left, _, rfl, hleft, _⟩ := renders_append.1 hbehind
      obtain ⟨opening, inner, rfl, hopening, _⟩ := renders_append.1 hleft
      rw [renders_text.1 hopening]
      exact ⟨_, rfl⟩
    obtain ⟨tail, rfl⟩ := hparen
    exact (hname first hfirst).append (separated_of_head (by decide)) hlexes

theorem lexes_sign {op : BinaryOp} {sign : String} (hsign : op.symbol? = some sign) :
    Token.Lexes sign.toList [.sign op] := by
  cases op with
  | logBase | max | min | choose | beta => cases hsign
  | _ =>
    cases hsign
    exact .token (s := ⟨.sign _, [], []⟩) rfl .nil

theorem infixed {op : BinaryOp} {sign : String} (hsign : op.symbol? = some sign) (hd : Lexed d ts)
    (he : Lexed e us) : Lexed (Term.infixed sign d e) (ts ++ .sign op :: us) := by
  intro cs hcs
  obtain ⟨front, second, rfl, hfront, hsecond⟩ := renders_append.1 (renders_group.1 hcs)
  obtain ⟨front, space, rfl, hfront, hspace⟩ := renders_append.1 hfront
  obtain ⟨front, mark, rfl, hfront, hmark⟩ := renders_append.1 hfront
  obtain ⟨first, space', rfl, hfirst, hspace'⟩ := renders_append.1 hfront
  rw [renders_text.1 hspace, renders_text.1 hspace', renders_text.1 hmark]
  have hblank : Text.isBlank ' ' = true := by decide
  have hright := (lexes_sign hsign).append (separated_of_head (by decide))
    (.blank hblank (he second hsecond))
  have hlexes := (hd first hfirst).append (separated_of_head (by decide)) (.blank hblank hright)
  simpa using hlexes

end Lexed

/-! What can be read back -/

/-- The name of the address finds it again, and is read as a name of its own. -/
def Environment.IsNamed (env : Environment) (a : Address) : Prop :=
  ∃ name, env.nameOf? a = some name ∧ env.lookup? name = some a ∧
    Token.isIdentifier name = true ∧ name ∉ ["pi", "e", "nan", "inf"]

def Environment.IsCallable (env : Environment) (f : FunctionId) (argc : UInt32) : Prop :=
  ∃ function, env.function? f = some function ∧ env.functionId? function.name = some f ∧
    function.argc = argc ∧ Token.isIdentifier function.name = true ∧
    Heading.isBuiltin function.name = false

def Node.Readable (env : Environment) : Node → Prop
  | .ref a => env.IsNamed a
  | .arg _ => False
  | .call f argc => env.IsCallable f argc
  | _ => True

/-- What the node is written as falls into tokens, and inside the scope these stand for the node. -/
def Node.Legible (scope : Scope) (env : Environment) : Node → Prop
  | .literal x => (x.value.isNaN = true → "nan" ∉ scope.params) ∧
      (x.value.isInf = true → "inf" ∉ scope.params)
  | .ref a => Token.isIdentifier (Term.variableName env a) = true ∧
      scope.Names env (Term.variableName env a) (.ref a)
  | .arg i => scope.Names env ("_" ++ toString i) (.arg i)
  | .call f argc => Token.isIdentifier (Term.functionName env f) = true ∧
      Phrase.NamesFunction (Term.functionName env f) ∧
      env.functionId? (Term.functionName env f) = some f ∧
      ((env.function? f).map Function.argc).getD 0 = argc
  | _ => True

abbrev Phrase.outside : Scope := ⟨[], false⟩

theorem Phrase.namesFunction_of_isBuiltin {f : String} (h : Heading.isBuiltin f = false) :
    NamesFunction f := by
  simp only [Heading.isBuiltin, Bool.or_eq_false_iff, Option.isSome_eq_false_iff,
    Option.isNone_iff_eq_none, List.contains_eq_mem, decide_eq_false_iff_not, List.mem_cons,
    List.not_mem_nil, or_false, not_or] at h
  obtain ⟨hop, hif, hsum, hprod, hlog⟩ := h
  refine ⟨hif, hlog, ?_, by rw [operatorNamed?, hop]⟩
  unfold foldNamed?
  split
  · exact absurd rfl hsum
  · exact absurd rfl hprod
  · rfl

theorem Phrase.namedConstant?_eq_none {name : String} (h : name ∉ ["pi", "e", "nan", "inf"]) :
    namedConstant? name = none := by
  simp only [List.mem_cons, List.not_mem_nil, or_false, not_or] at h
  obtain ⟨hpi, he, hnan, hinf⟩ := h
  unfold namedConstant?
  split <;> first | rfl | contradiction

theorem Node.Readable.legible {env : Environment} {node : Node} (h : node.Readable env) :
    node.Legible Phrase.outside env := by
  cases node with
  | literal x => exact ⟨fun _ => List.not_mem_nil, fun _ => List.not_mem_nil⟩
  | ref a =>
    obtain ⟨name, hname, hfinds, hident, hfree⟩ := h
    have hvariable : Term.variableName env a = name := by rw [Term.variableName, hname, Option.getD_some]
    rw [Legible, hvariable]
    exact ⟨hident, .address ⟨List.not_mem_nil, rfl, Phrase.namedConstant?_eq_none hfree⟩ hfinds⟩
  | arg i => exact h.elim
  | call f argc =>
    obtain ⟨function, hfunction, hfinds, hargc, hident, hbuiltin⟩ := h
    have hname : Term.functionName env f = function.name := by rw [Term.functionName, hfunction]
    rw [Legible, hname, hfunction]
    exact ⟨hident, Phrase.namesFunction_of_isBuiltin hbuiltin, hfinds, hargc⟩
  | _ => trivial

namespace Term

def Legible (scope : Scope) (env : Environment) (t : Term) : Prop :=
  ∀ node ∈ t.encode.nodes, node.Legible scope env

variable {scope : Scope} {env : Environment}

theorem forall_mem_singleton {node : Node} {P : Node → Prop} :
    (∀ n ∈ #[node], P n) ↔ P node := by
  simp

theorem legible_spanned {t : Term} :
    (∀ node ∈ Expression.spanned t.encode.nodes, node.Legible scope env) ↔ t.Legible scope env := by
  simp only [Expression.spanned, Array.forall_mem_append, forall_mem_singleton, Node.Legible,
    Legible, true_and, and_true]

@[simp] theorem legible_literal {x : Literal} :
    (literal x).Legible scope env ↔ (Node.literal x).Legible scope env :=
  forall_mem_singleton

@[simp] theorem legible_ref {a : Address} :
    (ref a).Legible scope env ↔ (Node.ref a).Legible scope env :=
  forall_mem_singleton

@[simp] theorem legible_arg {i : UInt32} :
    (arg i).Legible scope env ↔ (Node.arg i).Legible scope env :=
  forall_mem_singleton

@[simp] theorem legible_unary {op : UnaryOp} {t : Term} :
    (unary op t).Legible scope env ↔ t.Legible scope env := by
  simp only [Legible, nodes_unary, Array.forall_mem_append, forall_mem_singleton, Node.Legible,
    true_and]

@[simp] theorem legible_binary {op : BinaryOp} {a b : Term} :
    (binary op a b).Legible scope env ↔ a.Legible scope env ∧ b.Legible scope env := by
  simp only [Legible, nodes_binary, Array.forall_mem_append, forall_mem_singleton, Node.Legible,
    true_and]

@[simp] theorem legible_branch {c a b : Term} :
    (branch c a b).Legible scope env ↔
      c.Legible scope env ∧ a.Legible scope env ∧ b.Legible scope env := by
  rw [Legible, nodes_branch]
  simp only [Array.forall_mem_append, legible_spanned, and_assoc]
  simp only [forall_mem_singleton, Node.Legible, Legible, true_and]

@[simp] theorem legible_loop {kind : Fold} {v : Address} {lower upper body : Term} :
    (loop kind v lower upper body).Legible scope env ↔ (Node.ref v).Legible scope env ∧
      lower.Legible scope env ∧ upper.Legible scope env ∧ body.Legible scope env := by
  rw [Legible, nodes_loop]
  simp only [Array.forall_mem_append, legible_spanned, and_assoc]
  simp only [forall_mem_singleton, Legible]
  simp only [Node.Legible, true_and]

@[simp] theorem legible_call {f : FunctionId} {args : List Term} :
    (call f args).Legible scope env ↔
      (Node.call f (UInt32.ofNat args.length)).Legible scope env ∧
        ∀ t ∈ args, t.Legible scope env := by
  have hargs : (∀ node ∈ Expression.concat (encodeAll args), node.Legible scope env) ↔
      ∀ t ∈ args, t.Legible scope env := by
    induction args with
    | nil => simp [encodeAll]
    | cons t ts ih =>
      rw [encodeAll, Expression.concat_cons, Array.forall_mem_append, ih, List.forall_mem_cons]
      rfl
  rw [Legible, nodes_call, Array.forall_mem_append, forall_mem_singleton, hargs]

theorem lookup?_of_legible {v : Address} (h : (Node.ref v).Legible scope env) :
    variableName env v ∉ scope.params ∧ env.lookup? (variableName env v) = some v := by
  cases h.2 with
  | address free ha => exact ⟨free.not_param, ha⟩

theorem toList_position (i : UInt32) :
    ("_" ++ toString i).toList = '_' :: Decimal.digits i.toNat := by
  have htext : toString i = String.ofList (Nat.toDigits 10 i.toNat) := Nat.toString_eq_ofList_toDigits
  simp only [String.toList_append, htext, String.toList_ofList]
  rfl

theorem isIdentifier_position (i : UInt32) : Token.isIdentifier ("_" ++ toString i) = true := by
  rw [Token.isIdentifier, toList_position]
  simp only [Bool.and_eq_true, List.all_eq_true]
  refine ⟨by decide, fun c hc => ?_⟩
  rw [Token.isNamePart, Decimal.isDigit_of_mem_digits hc, Bool.or_true]

theorem isIdentifier_callName (op : BinaryOp) : Token.isIdentifier (callName op) = true := by
  cases op <;> decide

/-- The printed text of a legible term falls into its tokens. -/
theorem lexed_document {t : Term} (h : t.Legible scope env) :
    ∀ depth, Lexed (t.document env depth) (t.tokens env) := by
  induction t using Term.induction with
  | literal x => exact fun _ => .text (Token.lexes_expressionNumber x.value)
  | ref a => exact fun _ => .text (Token.lexes_name (legible_ref.1 h).1)
  | arg i => exact fun _ => .text (Token.lexes_name (isIdentifier_position i))
  | unary op t ih =>
    have ih := ih (legible_unary.1 h)
    intro depth
    cases op with
    | neg => exact (Lexed.enclosed ih).minus
    | not =>
      have hdenotes := ((binds_tokens env t).enclosed 7).denotes
      exact (Lexed.enclosed ih).bang hdenotes.begins
    | _ => exact .applied (by decide) (.cons (ih _) .nil)
  | binary op a b iha ihb =>
    obtain ⟨ha, hb⟩ := legible_binary.1 h
    have iha := iha ha
    have ihb := ihb hb
    intro depth
    cases hsign : op.symbol? with
    | some sign =>
      simp only [document, tokens, hsign]
      exact .infixed hsign (.enclosed iha) (.enclosed ihb)
    | none =>
      simp only [document, tokens, hsign]
      exact .applied (isIdentifier_callName op) (.cons (iha _) (.cons (ihb _) .nil))
  | branch c a b ihc iha ihb =>
    obtain ⟨hc, ha, hb⟩ := legible_branch.1 h
    intro depth
    exact .applied (by decide) (.cons (ihc hc _) (.cons (iha ha _) (.cons (ihb hb _) .nil)))
  | loop kind v lower upper body ihl ihu ihb =>
    obtain ⟨hv, hl, hu, hb⟩ := legible_loop.1 h
    intro depth
    have hkind : Token.isIdentifier (foldKeyword kind) = true := by cases kind <;> decide
    exact .applied hkind (.cons (.text (Token.lexes_name hv.1))
      (.cons (ihl hl _) (.cons (ihu hu _) (.cons (ihb hb _) .nil))))
  | call f args ih =>
    obtain ⟨⟨hident, -⟩, hargs⟩ := legible_call.1 h
    intro depth
    have hlexed : List.Forall₂ Lexed (documents env args (depth + 1)) (tokensAll env args) := by
      clear h
      induction args with
      | nil => exact .nil
      | cons t ts ihs =>
        exact .cons (ih t (by simp) (hargs t (by simp)) _)
          (ihs (fun u hu => ih u (by simp [hu])) fun u hu => hargs u (by simp [hu]))
    exact .applied hident hlexed

end Term

end PrefixCalculus
