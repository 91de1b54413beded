import PrefixCalculus.Numeric.Series
import PrefixCalculus.Proofs.LawfulReader
import PrefixCalculus.Proofs.PrintedForm
import PrefixCalculus.Simplification
set_option autoImplicit false

/-!
The text of what a printed expression is read back as. Parentheses stand around a NaN with a sign where
it is an operand of a power, and nowhere around one without; all else is written with the same
characters. Main statement: at every width a printed expression is read as its normal form, and that
has the same text exactly if no operand of a power is a NaN with a sign.
-/

namespace PrefixCalculus

/-! Digits are narrow -/

namespace Decimal

def IsNarrow (c : Char) : Prop :=
  ' ' ≤ c ∧ c ≤ '~'

theorem narrow_of_isDigit {c : Char} (h : isDigit c = true) : IsNarrow c := by
  rw [isDigit, Bool.and_eq_true, decide_eq_true_eq, decide_eq_true_eq] at h
  exact ⟨Char.le_trans (by decide) h.1, Char.le_trans h.2 (by decide)⟩

theorem narrow_of_mem_positional {d : Decimal} {c : Char} (h : c ∈ d.positional) : IsNarrow c := by
  rw [positional_eq] at h
  rcases List.mem_append.1 h with h | h
  · exact narrow_of_isDigit (isDigit_of_mem_wholePart h)
  · split at h
    · cases h
    · rcases List.mem_cons.1 h with rfl | h
      · exact ⟨by decide, by decide⟩
      · exact narrow_of_isDigit (isDigit_of_mem_fractionPart h)

theorem narrow_of_mem_toString {i : ℤ} {c : Char} (h : c ∈ (toString i).toList) : IsNarrow c := by
  have hdigits (n : ℕ) : n.repr.toList = digits n := by
    rw [Nat.repr_eq_ofList_toDigits, String.toList_ofList]
    rfl
  cases i with
  | ofNat n =>
    change c ∈ n.repr.toList at h
    rw [hdigits] at h
    exact narrow_of_isDigit (isDigit_of_mem_digits h)
  | negSucc n =>
    change c ∈ ("-" ++ (n + 1).repr).toList at h
    rw [String.toList_append, hdigits] at h
    rcases List.mem_cons.1 h with rfl | h
    · exact ⟨by decide, by decide⟩
    · exact narrow_of_isDigit (isDigit_of_mem_digits h)

theorem narrow_of_mem_scientific {d : Decimal} {c : Char} (h : c ∈ d.scientific) : IsNarrow c := by
  have hdigits : c ∈ digits d.mantissa → IsNarrow c := fun h =>
    narrow_of_isDigit (isDigit_of_mem_digits h)
  unfold scientific at h
  simp only at h
  rcases List.mem_append.1 h with h | h
  · rcases List.mem_append.1 h with h | h
    · exact hdigits (List.mem_of_mem_take h)
    · split at h
      · cases h
      · rcases List.mem_cons.1 h with rfl | h
        · exact ⟨by decide, by decide⟩
        · exact hdigits (List.mem_of_mem_drop h)
  · rcases List.mem_cons.1 h with rfl | h
    · exact ⟨by decide, by decide⟩
    · exact narrow_of_mem_toString h

end Decimal

theorem isNarrow_expressionNumber {x : Float} (hnan : x.isNaN = false) (hinf : x.isInf = false)
    (hsign : signBit x = false) : Document.isNarrow (expressionNumber x) = true := by
  obtain ⟨p, hp, hneg⟩ := Double.exists_parts hnan hinf
  rw [hsign] at hneg
  unfold expressionNumber scientificText positionalText
  rw [numberText_of_parts hp, numberText_of_parts hp, hneg]
  simp only [Bool.false_eq_true, if_false]
  by_cases hzero : p.mantissa = 0
  · rw [if_pos hzero, if_pos hzero]
    split
    · decide
    · decide
  · rw [if_neg hzero, if_neg hzero]
    split
    · simp only [Document.isNarrow, String.toList_ofList, List.all_eq_true, Bool.and_eq_true,
        decide_eq_true_eq]
      exact fun _ => Decimal.narrow_of_mem_scientific
    · simp only [Document.isNarrow, String.toList_ofList, List.all_eq_true, Bool.and_eq_true,
        decide_eq_true_eq]
      exact fun _ => Decimal.narrow_of_mem_positional

/-! Pairs of parentheses more -/

namespace Document

variable {α : Type} {d d' : Document α} {j k : ℕ}

theorem Alike.occurrences_eq (h : Alike d d') (c : Char) : d.occurrences c = d'.occurrences c := by
  induction h with
  | text => rfl
  | line => rfl
  | append _ _ iha ihb => exact congrArg₂ (· + ·) iha ihb
  | nest _ _ ih => exact ih
  | group _ ih => exact ih
  | split => simp [occurrences]
  | symm _ ih => exact ih.symm

/-- The second document is like the first, with so many pairs of parentheses more. -/
inductive Wraps : ℕ → Document α → Document α → Prop
  | alike {d d' : Document α} (h : Alike d d') : Wraps 0 d d'
  | append {j k : ℕ} {a a' b b' : Document α} (ha : Wraps j a a') (hb : Wraps k b b') :
      Wraps (j + k) (a ++ b) (a' ++ b')
  | nest {k : ℕ} {d d' : Document α} (more : ℕ) (h : Wraps k d d') :
      Wraps k (.nest more d) (.nest more d')
  | group {k : ℕ} {d d' : Document α} (h : Wraps k d d') : Wraps k (.group d) (.group d')
  | parens {k : ℕ} {d d' : Document α} (first last : α) (h : Wraps k d d') :
      Wraps (k + 1) d (.group (.text first "(" ++ d' ++ .text last ")"))

namespace Wraps

theorem refl (d : Document α) : Wraps 0 d d :=
  .alike (.refl d)

theorem of_eq (h : Wraps j d d') (heq : j = k) : Wraps k d d' :=
  heq ▸ h

theorem behind (a : Document α) (h : Wraps k d d') : Wraps k (a ++ d) (a ++ d') :=
  ((refl a).append h).of_eq (Nat.zero_add k)

theorem before (h : Wraps k d d') (b : Document α) : Wraps k (d ++ b) (d' ++ b) :=
  h.append (refl b)

theorem alike_of_eq_zero (h : Wraps k d d') (hk : k = 0) : Alike d d' := by
  induction h with
  | alike h => exact h
  | append _ _ iha ihb =>
    rw [Nat.add_eq_zero_iff] at hk
    exact (iha hk.1).append (ihb hk.2)
  | nest more _ ih => exact (ih hk).nest more
  | group _ ih => exact (ih hk).group
  | parens => cases hk

theorem occurrences_eq (h : Wraps k d d') : d'.occurrences '(' = d.occurrences '(' + k := by
  induction h with
  | alike h => exact (h.occurrences_eq '(').symm
  | append _ _ iha ihb =>
    simp only [occurrences_append, iha, ihb]
    omega
  | nest _ _ ih => exact ih
  | group _ ih => exact ih
  | parens first last _ ih =>
    have hopening : "(".toList.count '(' = 1 := by decide
    have hclosing : ")".toList.count '(' = 0 := by decide
    simp only [occurrences, occurrences_append, hopening, hclosing, ih]
    omega

/-- Only without a pair more the text is the same. -/
theorem render_eq_iff (h : Wraps k d d') {R : Renderer α} (lawful : R.Lawful) (width : ℕ) :
    R width d = R width d' ↔ k = 0 := by
  constructor
  · intro heq
    have hfirst := (lawful.renders width d).count (c := '(') (by decide) (by decide)
    have hsecond := (lawful.renders width d').count (c := '(') (by decide) (by decide)
    have hoccurrences := h.occurrences_eq
    rw [heq] at hfirst
    omega
  · exact fun hk => lawful.alike width (h.alike_of_eq_zero hk)

end Wraps

inductive WrapsAll : ℕ → List (Document α) → List (Document α) → Prop
  | nil : WrapsAll 0 [] []
  | cons {j k : ℕ} {d d' : Document α} {ds ds' : List (Document α)} (h : Wraps j d d')
      (hs : WrapsAll k ds ds') : WrapsAll (j + k) (d :: ds) (d' :: ds')

theorem WrapsAll.intersperse (separator : Document α) {ds ds' : List (Document α)}
    (hds : WrapsAll k ds ds') : ∀ {j : ℕ} {d d' : Document α}, Wraps j d d' →
      Wraps (j + k) (Document.intersperse separator d ds)
        (Document.intersperse separator d' ds') := by
  induction hds with
  | nil => exact fun h => h
  | cons he _ ih => exact fun h => h.append ((ih he).behind separator)

end Document

namespace Term

open Document (Alike Wraps WrapsAll)

variable {env : Environment} {depth : UInt8} {k : ℕ}

def signedNaN : BinaryOp → Term → ℕ
  | .power, literal .negativeNaN => 1
  | _, _ => 0

mutual

/-- How many operands of powers are NaNs with a sign. -/
def signedNaNs : Term → ℕ
  | literal _ | ref _ | arg _ => 0
  | unary _ t => t.signedNaNs
  | binary op a b => a.signedNaN op + a.signedNaNs + (b.signedNaN op + b.signedNaNs)
  | branch c a b => c.signedNaNs + (a.signedNaNs + b.signedNaNs)
  | loop _ _ lower upper body => lower.signedNaNs + (upper.signedNaNs + body.signedNaNs)
  | call _ args => signedNaNsAll args

def signedNaNsAll : List Term → ℕ
  | [] => 0
  | t :: ts => t.signedNaNs + signedNaNsAll ts

end

theorem binding_normalForm {t : Term} (h : t ≠ literal .negativeNaN) :
    t.normalForm.binding = t.binding := by
  cases t with
  | literal x =>
    rcases normalForm_literal_cases x with ⟨rfl, hform⟩ | ⟨rfl, -⟩ | hform
    · rw [hform]
      rfl
    · exact absurd rfl h
    · rw [hform]
  | unary op t =>
    rcases normalForm_unary_cases op t with ⟨x, rfl, rfl, hplain, hform⟩ | hform
    · simp only [isPlain, Bool.and_eq_true, Bool.not_eq_true'] at hplain
      have hsign : signBit (-x) = true := by rw [Double.signBit_neg hplain.1.1, hplain.2]; rfl
      rw [hform]
      simp [binding, Literal.isNegative, hsign]
    · rw [hform]
      cases op <;> rfl
  | _ => rfl

/-- A NaN with a sign is loose enough for parentheses only as an operand of a power. -/
theorem binding_normalForm_lt {t : Term} {least : ℕ}
    (h : t ≠ literal .negativeNaN ∨ least ≤ 7) :
    decide (t.normalForm.binding < least) = decide (t.binding < least) := by
  by_cases ht : t = literal .negativeNaN
  · have hle : least ≤ 7 := h.resolve_left fun hne => hne ht
    have hbinding : (literal .negativeNaN).binding = 7 := rfl
    have hform : (literal .negativeNaN).normalForm.binding = tight := by decide
    rw [ht, hbinding, hform, tight, decide_eq_false (by omega), decide_eq_false (by omega)]
  · rw [binding_normalForm ht]

theorem wraps_enclosed {tooLoose : Bool} {d d' : UInt8 → Styled}
    (h : ∀ depth, Wraps k (d depth) (d' depth)) :
    Wraps k (enclosed tooLoose depth d) (enclosed tooLoose depth d') := by
  cases tooLoose with
  | true => exact (((h _).behind _).before _).group
  | false => exact h depth

theorem wraps_operand {op : BinaryOp} {t : Term} {least : ℕ}
    (hleast : op = .power ∧ 7 < least ∧ least ≤ tight ∨ op ≠ .power ∧ least ≤ 7)
    (h : ∀ depth, Wraps k (t.normalForm.document env depth) (t.document env depth)) :
    Wraps (t.signedNaN op + k)
      (enclosed (t.normalForm.binding < least) depth (t.normalForm.document env))
      (enclosed (t.binding < least) depth (t.document env)) := by
  by_cases hsigned : op = .power ∧ t = literal .negativeNaN
  · obtain ⟨rfl, rfl⟩ := hsigned
    obtain ⟨-, hlt, hle⟩ := hleast.resolve_right fun h => h.1 rfl
    have hbinding : (literal .negativeNaN).binding = 7 := rfl
    have hform : (literal .negativeNaN).normalForm.binding = tight := by decide
    rw [hbinding, hform, decide_eq_false (Nat.not_lt.2 hle), decide_eq_true hlt]
    exact ((h depth).parens _ _).of_eq (Nat.add_comm k 1)
  · have hnone : t.signedNaN op = 0 := by
      unfold signedNaN
      split
      · exact absurd ⟨rfl, rfl⟩ hsigned
      · rfl
    have hbinding : t ≠ literal .negativeNaN ∨ least ≤ 7 := by
      rcases hleast with ⟨hop, -⟩ | ⟨-, hle⟩
      · exact .inl fun ht => hsigned ⟨hop, ht⟩
      · exact .inr hle
    rw [binding_normalForm_lt hbinding, hnone, Nat.zero_add]
    exact wraps_enclosed h

theorem operandBindings_cases {op : BinaryOp} {sign : String} (hsign : op.symbol? = some sign) :
    (op = .power ∧ 7 < (operandBindings op).1 ∧ (operandBindings op).1 ≤ tight
      ∨ op ≠ .power ∧ (operandBindings op).1 ≤ 7) ∧
    (op = .power ∧ 7 < (operandBindings op).2 ∧ (operandBindings op).2 ≤ tight
      ∨ op ≠ .power ∧ (operandBindings op).2 ≤ 7) := by
  cases op with
  | logBase | max | min | choose | beta => cases hsign
  | _ => decide

theorem wraps_applied {name : Styled} {ds ds' : List Styled} (h : WrapsAll k ds ds') :
    Wraps k (applied name depth ds) (applied name depth ds') := by
  cases h with
  | nil => exact .refl _
  | cons h hs =>
    exact ((((hs.intersperse _ h).nest 2).behind _).before _ |>.behind _).group

theorem wraps_infixed {sign : String} {j : ℕ} {d d' e e' : Styled} (hd : Wraps j d d')
    (he : Wraps k e e') : Wraps (j + k) (infixed sign d e) (infixed sign d' e') :=
  ((((hd.before _).before _).before _).append he).group

theorem document_unary {op : UnaryOp} (hneg : op ≠ .neg) (hnot : op ≠ .not) (t : Term) :
    (unary op t).document env depth =
      applied (styled (.function) op.name) depth [t.document env (depth + 1)] := by
  cases op <;> first | rfl | exact absurd rfl hneg | exact absurd rfl hnot

theorem alike_signed {x : Float} (h : isPlain x = true) :
    Alike ((const (-x)).document env depth) ((unary .neg (const x)).document env depth) := by
  simp only [isPlain, Bool.and_eq_true, Bool.not_eq_true'] at h
  obtain ⟨⟨hnan, hinf⟩, hsign⟩ := h
  have htight : (const x).binding = tight := by rw [binding, Literal.isNegative, hsign]; rfl
  have hloose : decide ((const x).binding < 7) = false := by rw [htight]; rfl
  simp only [document, Literal.value_number, hloose, enclosed, Bool.false_eq_true, if_false,
    expressionNumber_neg hnan hinf hsign]
  exact .split _ _ _ (by decide) (isNarrow_expressionNumber hnan hinf hsign)

theorem alike_literal (x : Literal) :
    Alike ((literal x).normalForm.document env depth) ((literal x).document env depth) := by
  rcases normalForm_literal_cases x with ⟨rfl, h⟩ | ⟨rfl, h⟩ | h
  · have htext : expressionNumber (-infinity) = "-" ++ "inf" := by decide
    have htext' : expressionNumber infinity = "inf" := by decide
    rw [h]
    simp only [document, Literal.value_number, htext, htext']
    exact (Alike.split _ _ _ (by decide) (by decide)).symm
  · rw [h]
    exact .refl _
  · rw [h]

theorem wraps_normalForm (t : Term) :
    ∀ depth, Wraps t.signedNaNs (t.normalForm.document env depth) (t.document env depth) := by
  induction t using Term.induction with
  | literal x => exact fun _ => .alike (alike_literal x)
  | ref a => exact fun _ => .refl _
  | arg i => exact fun _ => .refl _
  | unary op t ih =>
    intro depth
    rcases normalForm_unary_cases op t with ⟨x, rfl, rfl, hplain, h⟩ | h
    · rw [h]
      exact .alike (alike_signed hplain)
    · rw [h]
      by_cases hneg : op = .neg
      · subst hneg
        simp only [document, signedNaNs, binding_normalForm_lt (t := t) (.inr (Nat.le_refl 7))]
        exact (wraps_enclosed ih).behind _
      · by_cases hnot : op = .not
        · subst hnot
          simp only [document, signedNaNs, binding_normalForm_lt (t := t) (.inr (Nat.le_refl 7))]
          exact (wraps_enclosed ih).behind _
        · rw [document_unary hneg hnot, document_unary hneg hnot]
          exact wraps_applied (.cons (ih _) .nil)
  -- an operand has its parentheses in both documents, except a NaN with a sign under a power
  | binary op a b iha ihb =>
    intro depth
    simp only [normalForm, document, signedNaNs]
    cases hsign : op.symbol? with
    | some sign =>
      obtain ⟨hfirst, hsecond⟩ := operandBindings_cases hsign
      exact wraps_infixed (wraps_operand hfirst iha) (wraps_operand hsecond ihb)
    | none =>
      have hpower : op ≠ .power := by
        rintro rfl
        cases hsign
      have hnone (t : Term) : t.signedNaN op = 0 := by
        unfold signedNaN
        split
        · exact absurd rfl hpower
        · rfl
      rw [hnone, hnone, Nat.zero_add, Nat.zero_add]
      exact wraps_applied (.cons (iha _) (.cons (ihb _) .nil))
  | branch c a b ihc iha ihb =>
    exact fun _ => wraps_applied (.cons (ihc _) (.cons (iha _) (.cons (ihb _) .nil)))
  | loop kind v lower upper body ihl ihu ihb =>
    exact fun _ => (wraps_applied
      (.cons (.refl _) (.cons (ihl _) (.cons (ihu _) (.cons (ihb _) .nil))))).of_eq
        (Nat.zero_add _)
  | call f args ih =>
    intro depth
    refine wraps_applied ?_
    show WrapsAll (signedNaNsAll args) (documents env (normalForms args) _) (documents env args _)
    induction args with
    | nil => exact .nil
    | cons t ts ihs => exact .cons (ih t (by simp) _) (ihs fun u hu => ih u (by simp [hu]))

theorem pretty_normalForm {t : Term} (fits : t.Fits) (fits' : t.normalForm.Fits)
    {R : Renderer Style} (lawful : R.Lawful) (width : ℕ) :
    t.normalForm.encode.prettyBy R env width = t.encode.prettyBy R env width ↔
      t.signedNaNs = 0 := by
  rw [Expression.prettyBy, Expression.prettyBy, document_encode fits, document_encode fits']
  exact (wraps_normalForm t 0).render_eq_iff lawful width

end Term

/-- A valid expression whose names can be read back is read from its text, whatever the width, as its
normal form, by every parser that keeps to the grammar, and the environment stays as it was. The normal
form has the same values; it can be encoded unless signs of infinities take it beyond the longest span.
It has the same text unless a NaN with a sign is an operand of a power. -/
theorem Environment.parse_pretty [SpecialFunctions] {C : Combinators} {R : Renderer Style}
    (readerLawful : C.Lawful) (rendererLawful : R.Lawful) (env : Environment) (e : Expression)
    (valid : e.check = .ok ()) (readable : ∀ node ∈ e.nodes, node.Readable env) :
    ∃ t : Term, t.Fits ∧ e = t.encode ∧
      (∀ width, env.parseBy C (e.prettyBy R env width) = (.ok t.normalForm.encode, env)) ∧
      (2 * e.size ≤ UInt32.size → t.normalForm.Fits) ∧
      (t.normalForm.Fits →
        (∀ frame env' v, t.normalForm.encode.Gives frame env' v ↔ e.Gives frame env' v) ∧
        ∀ width, t.normalForm.encode.prettyBy R env width = e.prettyBy R env width ↔
          t.signedNaNs = 0) := by
  obtain ⟨t, fits, rfl⟩ := Term.check_eq_ok_iff.1 valid
  have legible : t.Legible Phrase.outside env := fun node hnode => (readable node hnode).legible
  refine ⟨t, fits, rfl, Term.parse_pretty_encode rendererLawful readerLawful fits legible, ?_, ?_⟩
  · intro h
    rw [Expression.size, Term.size_encode] at h
    exact Term.fits_normalForm h
  · intro fits'
    constructor
    · intro frame env' v
      rw [Term.gives_encode fits, Term.gives_encode fits']
      exact Term.sameValues_normalForm t frame env' v
    · exact Term.pretty_normalForm fits fits' rendererLawful

open Series

def signedSum : Term × Environment :=
  (.loop .sum ⟨0⟩ (.unary .neg (.const 2.0)) (.const 1e20)
      (.binary .sub (.ref ⟨0⟩)
        (.binary .power (.unary .neg (.call ⟨0⟩ [.const (-infinity)])) (.const (-0.5)))),
    ⟨#[⟨some "i", 1.0⟩], #[⟨⟨"f", 1, .arg 0⟩, true⟩]⟩)

theorem parse_pretty_signedSum :
    signedSum.1.encode.check = .ok () ∧
    (∀ node ∈ signedSum.1.encode.nodes, node.Readable signedSum.2) ∧
    ∀ width, signedSum.2.parse (signedSum.1.encode.pretty signedSum.2 width)
      = (.ok (Term.encode (.loop .sum ⟨0⟩ (.const (-2.0)) (.const 1e20)
          (.binary .sub (.ref ⟨0⟩)
            (.binary .power (.unary .neg (.call ⟨0⟩ [.unary .neg (.const infinity)]))
              (.const (-0.5)))))), signedSum.2) := by
  have fits : signedSum.1.Fits := Term.fits_of_size (by decide)
  have hnamed : signedSum.2.IsNamed ⟨0⟩ := ⟨"i", rfl, by decide +kernel, by decide, by decide⟩
  have hcallable : signedSum.2.IsCallable ⟨0⟩ 1 :=
    ⟨_, rfl, by decide +kernel, rfl, by decide, by decide⟩
  have readable : ∀ node ∈ signedSum.1.encode.nodes, node.Readable signedSum.2 := by
    have hnodes : signedSum.1.encode.nodes = #[.op (.fold .sum), .ref ⟨0⟩, .op (.unary .neg),
        .const 2.0, .const 1e20, .opening 8, .op (.binary .sub), .ref ⟨0⟩, .op (.binary .power),
        .op (.unary .neg), .call ⟨0⟩ 1, .const (-infinity), .const (-0.5), .closing 8] := by
      decide
    rw [hnodes]
    simp [Node.Readable, hnamed, hcallable]
  refine ⟨Term.check_encode fits, readable, ?_⟩
  obtain ⟨t, fits', ht, hparse, -, -⟩ :=
    Environment.parse_pretty reader_lawful Document.renderer_lawful signedSum.2 signedSum.1.encode
      (Term.check_encode fits) readable
  have heq : t = signedSum.1 := by
    have hdecode := Term.decode_encode fits'
    rw [← ht, Term.decode_encode fits] at hdecode
    injection hdecode with h
    exact h.symm
  subst heq
  have hnormal : signedSum.1.normalForm = .loop .sum ⟨0⟩ (.const (-2.0)) (.const 1e20)
      (.binary .sub (.ref ⟨0⟩)
        (.binary .power (.unary .neg (.call ⟨0⟩ [.unary .neg (.const infinity)]))
          (.const (-0.5)))) := by
    have htwo : isPlain 2.0 = true := by decide
    have hhuge : ((1e20 : Float).isInf && signBit 1e20) = false := by decide
    have hinf : ((-infinity).isInf && signBit (-infinity)) = true := by decide
    have hhalf : ((-0.5 : Float).isInf && signBit (-0.5)) = false := by decide
    simp only [signedSum, Term.normalForm, Term.normalForms, htwo, hhuge, hinf, hhalf, if_true,
      Bool.false_eq_true, if_false]
  rw [← hnormal]
  exact hparse

def namedX : Environment where
  slots := #[⟨some "x", 0.0⟩]
  entries := #[]

/-- What simplification makes of `(-nan) ^ x`. -/
def signedNaNPower : Term :=
  .binary .power (.literal .negativeNaN) (.ref ⟨0⟩)

/-- A power of a NaN with a sign is printed with parentheses, and without them when it is read back. -/
theorem Environment.signed_nan_printed_again :
    (namedX.parse "(-nan) ^ x").1
      = .ok (Term.binary .power (.unary .neg (.const nan)) (.ref ⟨0⟩)).encode ∧
    (Term.binary .power (.unary .neg (.const nan)) (.ref ⟨0⟩)).encode.simplify namedX
      = signedNaNPower.encode ∧
    signedNaNPower.encode.check = .ok () ∧
    (∀ node ∈ signedNaNPower.encode.nodes, node.Readable namedX) ∧
    signedNaNPower.encode.text namedX = "(nan) ^ x" ∧
    namedX.parse "(nan) ^ x"
      = (.ok (Term.binary .power (.const nan) (.ref ⟨0⟩)).encode, namedX) ∧
    (Term.binary .power (.const nan) (.ref ⟨0⟩)).encode.text namedX = "nan ^ x" := by
  have hnamed : namedX.IsNamed ⟨0⟩ := ⟨"x", rfl, by decide +kernel, by decide, by decide⟩
  have hnodes : signedNaNPower.encode.nodes
      = #[.op (.binary .power), .literal .negativeNaN, .ref ⟨0⟩] := by decide
  refine ⟨by decide +kernel, by decide +kernel, by decide, ?_, by decide +kernel,
    by decide +kernel, by decide +kernel⟩
  rw [hnodes]
  simp [Node.Readable, hnamed]

end PrefixCalculus
