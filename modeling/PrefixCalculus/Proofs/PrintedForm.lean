import PrefixCalculus.Proofs.Denotation
import PrefixCalculus.Proofs.DocumentWalk
import PrefixCalculus.Proofs.KnownNames
import PrefixCalculus.Proofs.PrintedPhrase
set_option autoImplicit false

/-!
What a printed expression is read back as. A negation of digits is read as a number with a sign,
negative infinity as a negation, and NaN without a sign; nothing else changes. Main statements: at
every width a printed term that is legible is read as this form of it, in an environment that stays as
it was, and the form has the same values.
-/

namespace PrefixCalculus

def isPlain (x : Float) : Bool :=
  !x.isNaN && !x.isInf && !signBit x

namespace Term

mutual

/-- The term that the printed term is read back as. -/
def normalForm : Term → Term
  | literal .negativeNaN => const nan
  | literal (.number x) => if x.isInf && signBit x then unary .neg (const infinity) else const x
  | ref a => ref a
  | arg i => arg i
  | unary .neg (const x) => if isPlain x then const (-x) else unary .neg (const x).normalForm
  | unary op t => unary op t.normalForm
  | binary op a b => binary op a.normalForm b.normalForm
  | branch c a b => branch c.normalForm a.normalForm b.normalForm
  | loop kind v lower upper body => loop kind v lower.normalForm upper.normalForm body.normalForm
  | call f args => call f (normalForms args)

def normalForms : List Term → List Term
  | [] => []
  | t :: ts => t.normalForm :: normalForms ts

end

theorem normalForm_unary {op : UnaryOp} {t : Term}
    (h : ∀ x, op = .neg → t = const x → isPlain x = false) :
    (unary op t).normalForm = unary op t.normalForm := by
  by_cases hop : op = .neg
  · subst hop
    cases t with
    | literal x =>
      cases x with
      | negativeNaN => rfl
      | number x =>
        have hplain := h x rfl rfl
        simp only [normalForm, hplain, Bool.false_eq_true, if_false]
    | _ => rfl
  · cases op <;> first | rfl | exact absurd rfl hop

theorem normalForm_neg_const {x : Float} (h : isPlain x = true) :
    (unary .neg (const x)).normalForm = const (-x) := by
  rw [normalForm, if_pos h]

end Term

/-! What the printed phrase means -/

namespace Phrase

theorem foldNamed?_foldKeyword (kind : Fold) : foldNamed? (Term.foldKeyword kind) = some kind := by
  cases kind <;> rfl

theorem operatorNamed?_name_unary (op : UnaryOp) :
    operatorNamed? (Operator.unary op).name = some (.unary op) := by
  rw [operatorNamed?, Operator.ofName?_name]

theorem operatorNamed?_name_binary (op : BinaryOp) :
    operatorNamed? (Operator.binary op).name = some (.binary op) := by
  rw [operatorNamed?, Operator.ofName?_name]

variable {scope : Scope} {env : Environment}

theorem means_constant {name : String} {x : Float} (hparam : name ∉ scope.params)
    (hposition : position? name = none) (hx : namedConstant? name = some x) :
    Means scope env (.name name) (.const x) := by
  refine .name (.constant hparam ?_ hx)
  rw [Scope.position?, hposition]
  split <;> rfl

section

variable {x : Float} (hnan : x.isNaN = true → "nan" ∉ scope.params)
  (hinf : x.isInf = true → "inf" ∉ scope.params)
include hnan hinf

theorem means_ofUnsigned (hsign : signBit x = false) :
    Means scope env (ofUnsigned x) (.const x) := by
  unfold ofUnsigned
  cases h : x.isNaN with
  | true =>
    have hparam := hnan h
    rw [Double.eq_nan_of_isNaN h]
    exact means_constant hparam (by decide) rfl
  | false =>
    cases h' : x.isInf with
    | true =>
      have hparam := hinf h'
      rcases Double.eq_infinity_of_isInf h' with rfl | rfl
      · exact means_constant hparam (by decide) rfl
      · exact absurd hsign (by decide)
    | false => exact .number x

theorem means_ofNumber : Means scope env (ofNumber x) (Term.const x).normalForm := by
  cases hsign : signBit x with
  | false =>
    simp only [ofNumber, Term.normalForm, hsign, Bool.and_false, Bool.false_eq_true, if_false]
    exact means_ofUnsigned hnan hinf hsign
  | true =>
    have hnumber : x.isNaN = false := by
      cases hnan : x.isNaN with
      | false => rfl
      | true =>
        rw [signBit, hnan] at hsign
        cases hsign
    simp only [ofNumber, Term.normalForm, hsign, if_true, Bool.and_true]
    cases h : x.isInf with
    | true =>
      have hparam := hinf h
      rcases Double.eq_infinity_of_isInf h with rfl | rfl
      · exact absurd hsign (by decide)
      · rw [Double.neg_neg]
        exact .neg (by rintro x ⟨⟩) (means_constant hparam (by decide) rfl)
    | false =>
      have hphrase : ofUnsigned (-x) = .number (-x) := by
        simp only [ofUnsigned, Double.isNaN_neg, Double.isInf_neg, hnumber, h, Bool.false_eq_true,
          if_false]
      have hliteral : Means scope env (.neg (.number (-x))) (.const (- -x)) := .literal (-x)
      rw [Double.neg_neg] at hliteral
      rw [hphrase]
      exact hliteral

end

end Phrase

namespace Term

open Phrase (Means)

variable {scope : Scope} {env : Environment}

theorem phrase_unary {op : UnaryOp} (hneg : op ≠ .neg) (hnot : op ≠ .not) (t : Term) :
    (unary op t).phrase env = .call op.name [t.phrase env] := by
  cases op <;> first | rfl | exact absurd rfl hneg | exact absurd rfl hnot

theorem phrase_eq_number {t : Term} {x : Float} (h : t.phrase env = .number x) :
    t = const x ∧ isPlain x = true := by
  cases t with
  | literal y =>
    rw [phrase, Phrase.ofNumber] at h
    split at h
    · cases h
    next hsign =>
      unfold Phrase.ofUnsigned at h
      split at h
      · cases h
      next hnan =>
        split at h
        · cases h
        next hinf =>
          cases h
          cases y with
          | negativeNaN => exact absurd (by decide : nan.isNaN = true) hnan
          | number y =>
            rw [Bool.not_eq_true] at hsign hnan hinf
            exact ⟨rfl, by rw [isPlain, hnan, hinf, hsign]; rfl⟩
  | unary op t => cases op <;> cases h
  | binary op a b =>
    simp only [phrase] at h
    split at h <;> cases h
  | _ => cases h

theorem length_phrases (ts : List Term) : (phrases env ts).length = ts.length := by
  induction ts with
  | nil => rfl
  | cons t ts ih => rw [phrases, List.length_cons, ih, List.length_cons]

theorem means_phrase_unary {op : UnaryOp} {t : Term}
    (ht : Means scope env (t.phrase env) t.normalForm) :
    Means scope env ((unary op t).phrase env) (unary op t).normalForm := by
  by_cases hneg : op = .neg
  · subst hneg
    by_cases hplain : ∃ x, t = const x ∧ isPlain x = true
    · obtain ⟨x, rfl, hplain⟩ := hplain
      have hphrase : (const x).phrase env = .number x := by
        simp only [isPlain, Bool.and_eq_true, Bool.not_eq_true'] at hplain
        simp only [phrase, Literal.value_number, Phrase.ofNumber, Phrase.ofUnsigned, hplain,
          Bool.false_eq_true, if_false]
      rw [normalForm_neg_const hplain, phrase, hphrase]
      exact .literal x
    · simp only [not_exists, not_and] at hplain
      rw [normalForm_unary fun x _ ht => by simpa using hplain x ht, phrase]
      exact .neg (fun x hx => hplain x (phrase_eq_number hx).1 (phrase_eq_number hx).2) ht
  · rw [normalForm_unary fun x hop _ => absurd hop hneg]
    by_cases hnot : op = .not
    · subst hnot
      exact .not ht
    · rw [phrase_unary hneg hnot]
      exact .unaryCall (Phrase.operatorNamed?_name_unary op) ht

theorem means_phrase_binary {op : BinaryOp} {a b : Term}
    (ha : Means scope env (a.phrase env) a.normalForm)
    (hb : Means scope env (b.phrase env) b.normalForm) :
    Means scope env ((binary op a b).phrase env) (binary op a b).normalForm := by
  rw [normalForm, phrase]
  cases op.symbol? with
  | some sign => exact .binary ha hb
  | none =>
    by_cases hlog : op = .logBase
    · subst hlog
      exact .logBase rfl ha hb
    · have hname : callName op = op.name := by
        cases op <;> first | rfl | exact absurd rfl hlog
      rw [hname]
      exact .binaryCall (Phrase.operatorNamed?_name_binary op) ha hb

/-- The phrase of a legible term means its normal form. -/
theorem means_phrase {t : Term} (fits : t.Fits) (h : t.Legible scope env) :
    Means scope env (t.phrase env) t.normalForm := by
  induction t using Term.induction with
  | literal x =>
    obtain ⟨hnan, hinf⟩ := legible_literal.1 h
    have hnumber : Means scope env (Phrase.ofNumber x.value) (const x.value).normalForm :=
      Phrase.means_ofNumber hnan hinf
    cases x with
    | number x => exact hnumber
    | negativeNaN =>
      have hunsigned : (nan.isInf && signBit nan) = false := by decide
      rwa [Literal.value, normalForm, hunsigned, if_neg Bool.false_ne_true] at hnumber
  | ref a => exact .name (legible_ref.1 h).2
  | arg i => exact .name (legible_arg.1 h)
  | unary op t ih => exact means_phrase_unary (ih fits (legible_unary.1 h))
  | binary op a b iha ihb =>
    obtain ⟨ha, hb⟩ := legible_binary.1 h
    exact means_phrase_binary (iha fits.1 ha) (ihb fits.2 hb)
  | branch c a b ihc iha ihb =>
    obtain ⟨hc, ha, hb⟩ := legible_branch.1 h
    exact .branch rfl (ihc fits.1 hc) (iha fits.2.1 ha) (ihb fits.2.2.1 hb)
  | loop kind v lower upper body ihl ihu ihb =>
    obtain ⟨hv, hl, hu, hb⟩ := legible_loop.1 h
    obtain ⟨hparam, hfinds⟩ := lookup?_of_legible hv
    exact .loop (Phrase.foldNamed?_foldKeyword kind) hparam hfinds (ihl fits.1 hl) (ihu fits.2.1 hu)
      (ihb fits.2.2.1 hb)
  | call f args ih =>
    obtain ⟨⟨-, hnames, hfinds, hargc⟩, hargs⟩ := legible_call.1 h
    have hfits := (fitsAll_iff args).1 fits.1
    refine .call hnames hfinds ?_ (Phrase.meansAll_iff.2 ?_)
    · rw [length_phrases, hargc]
      exact (UInt32.toNat_ofNat_of_lt fits.2).symm
    · show List.Forall₂ (Means scope env) (phrases env args) (normalForms args)
      clear h hargc fits
      induction args with
      | nil => exact .nil
      | cons t ts ihs =>
        exact .cons (ih t (by simp) (hfits t (by simp)) (hargs t (by simp)))
          (ihs (fun u hu => ih u (by simp [hu])) (fun u hu => hargs u (by simp [hu]))
            fun u hu => hfits u (by simp [hu]))

/-! The values and the text of the normal form -/

theorem normalForm_literal_cases (x : Literal) :
    x = .number (-infinity) ∧ (literal x).normalForm = unary .neg (const infinity)
      ∨ x = .negativeNaN ∧ (literal x).normalForm = const nan
      ∨ (literal x).normalForm = literal x := by
  cases x with
  | negativeNaN => exact .inr (.inl ⟨rfl, rfl⟩)
  | number x =>
    rw [normalForm]
    by_cases h : (x.isInf && signBit x) = true
    · rw [if_pos h]
      rw [Bool.and_eq_true] at h
      rcases Double.eq_infinity_of_isInf h.1 with rfl | rfl
      · exact absurd h.2 (by decide)
      · exact .inl ⟨rfl, rfl⟩
    · rw [if_neg h]
      exact .inr (.inr rfl)

theorem normalForm_unary_cases (op : UnaryOp) (t : Term) :
    (∃ x, op = .neg ∧ t = const x ∧ isPlain x = true ∧ (unary op t).normalForm = const (-x))
      ∨ (unary op t).normalForm = unary op t.normalForm := by
  by_cases h : ∃ x, op = .neg ∧ t = const x ∧ isPlain x = true
  · obtain ⟨x, rfl, rfl, hplain⟩ := h
    exact .inl ⟨x, rfl, rfl, hplain, normalForm_neg_const hplain⟩
  · refine .inr (normalForm_unary fun x hop ht => ?_)
    simp only [not_exists, not_and] at h
    simpa using h x hop ht

theorem sameValues_normalForm [SpecialFunctions] (t : Term) : SameValues t.normalForm t := by
  induction t using Term.induction with
  | literal x =>
    rcases normalForm_literal_cases x with ⟨rfl, h⟩ | ⟨rfl, h⟩ | h
    · intro frame env v
      rw [h]
      simp [hasValue_unary, UnaryOp.apply]
    · intro frame env v
      rw [h]
      simp [Literal.value]
    · rw [h]
      exact .refl _
  | ref a => exact .refl _
  | arg i => exact .refl _
  | unary op t ih =>
    rcases normalForm_unary_cases op t with ⟨x, rfl, rfl, -, h⟩ | h
    · intro frame env v
      rw [h]
      simp [hasValue_unary, UnaryOp.apply]
    · rw [h]
      exact ih.unary op
  | binary op a b iha ihb => exact .binary op iha ihb
  | branch c a b ihc iha ihb => exact .branch ihc iha ihb
  | loop kind v lower upper body ihl ihu ihb => exact .loop kind v ihl ihu ihb
  | call f args ih =>
    refine .call f ?_
    show List.Forall₂ SameValues (normalForms args) args
    induction args with
    | nil => exact .nil
    | cons t ts ihs => exact .cons (ih t (by simp)) (ihs fun u hu => ih u (by simp [hu]))

/-! The room that the normal form takes -/

theorem size_normalForm_le (t : Term) : t.normalForm.size ≤ 2 * t.size := by
  induction t using Term.induction with
  | literal x =>
    rcases normalForm_literal_cases x with ⟨rfl, h⟩ | ⟨rfl, h⟩ | h
    · rw [h]
      decide
    · rw [h]
      decide
    · rw [h]
      simp only [size]
      omega
  | ref | arg => simp only [normalForm, size]; omega
  | unary op t ih =>
    rcases normalForm_unary_cases op t with ⟨x, rfl, rfl, -, h⟩ | h
    · rw [h]
      simp only [size]
      omega
    · rw [h]
      simp only [size]
      omega
  | binary op a b iha ihb => simp only [normalForm, size]; omega
  | branch c a b ihc iha ihb => simp only [normalForm, size]; omega
  | loop kind v lower upper body ihl ihu ihb => simp only [normalForm, size]; omega
  | call f args ih =>
    have hargs : sizeAll (normalForms args) ≤ 2 * sizeAll args := by
      induction args with
      | nil => simp [normalForms, sizeAll]
      | cons t ts ihs =>
        have ht := ih t (by simp)
        have hts := ihs fun u hu => ih u (by simp [hu])
        simp only [normalForms, sizeAll]
        omega
    simp only [normalForm, size]
    omega

theorem fits_normalForm {t : Term} (h : 2 * t.size ≤ UInt32.size) : t.normalForm.Fits := by
  have := size_normalForm_le t
  exact fits_of_size (by omega)

/-! Printing and reading -/

theorem document_encode {t : Term} (fits : t.Fits) : t.encode.document env = t.document env 0 := by
  have hread := decodeFrom_of_stands t fits (t.size + 1) 0 (Nat.le_succ _) (stands_self _)
  rw [← size_encode] at hread
  have hwrites : Expression.documentAt env t.encode.nodes 0 0 = some (t.document env 0, _) :=
    writes_of_decodeFrom _ hread 0
  simp only [Expression.document, isNull_encode, check_encode fits, hwrites]
  rfl

section

variable {R : Renderer Style} (rendererLawful : R.Lawful)
include rendererLawful

theorem lexes_pretty {t : Term} (fits : t.Fits) (h : t.Legible scope env) (width : Nat) :
    Token.Lexes (t.encode.prettyBy R env width).toList (t.tokens env) := by
  rw [Expression.prettyBy, document_encode fits]
  exact lexed_document h 0 _ (rendererLawful.renders width (t.document env 0))

/-- A printed term is read as its normal form by every parser that keeps to the grammar. -/
theorem parse_pretty_encode {C : Combinators} (readerLawful : C.Lawful) {t : Term} (fits : t.Fits)
    (legible : t.Legible Phrase.outside env) (width : Nat) :
    env.parseBy C (t.encode.prettyBy R env width) = (.ok t.normalForm.encode, env) := by
  have hne : t.tokens env ≠ [] :=
    List.ne_nil_of_length_pos (Phrase.IsChain.begins (denotes_tokens env t)).length_pos
  have htokens : tokensOf (t.encode.prettyBy R env width) = .ok (t.tokens env) := by
    rw [tokensOf,
      (Token.Lexes.ofText_eq_ok_iff hne).2 (lexes_pretty rendererLawful fits legible width)]
  have hphrase : C.readPhrase (t.tokens env) = .ok (t.phrase env) :=
    (Combinators.readPhrase_eq_ok_iff readerLawful).2 (denotes_tokens env t)
  have hmeaning := (means_phrase fits legible).meaning (r := .start env)
  simp only [Environment.parseBy, htokens, bind, Except.bind, hphrase, hmeaning]
  rfl

end

end Term

end PrefixCalculus
