import PrefixCalculus.Proofs.DefinitionText
import PrefixCalculus.Proofs.Encoding
import PrefixCalculus.Proofs.Scanning
import PrefixCalculus.Proofs.UniqueDerivation
set_option autoImplicit false

/-!
How long what is read can be. A token takes a character at least, a phrase as many tokens as it has
signs, names and separators, and a term no more nodes than that: the markers of a branch and of a loop
are paid for by the parentheses and the commas. Main statements: the flat form of what a text means has
no more nodes than the text has characters, and the text of a definition is longer than the list of its
parameters.
-/

namespace PrefixCalculus

theorem Token.Lexes.length_le {cs : List Char} {ts : List Token} (h : Lexes cs ts) :
    ts.length ≤ cs.length := by
  induction h with
  | nil => exact Nat.le_refl 0
  | blank _ _ ih => exact Nat.le_succ_of_le ih
  | token hs _ ih => exact Nat.lt_of_le_of_lt ih (length_rest_lt hs)

theorem length_le_of_tokensOf {text : String} {ts : List Token} (h : tokensOf text = .ok ts) :
    ts.length ≤ text.length := by
  cases ts with
  | nil => exact Nat.zero_le _
  | cons t ts =>
    have htext : Token.ofText text = .ok (t :: ts) := by
      rw [tokensOf] at h
      split at h <;> cases h
      assumption
    exact ((Token.Lexes.ofText_eq_ok_iff (by simp)).1 htext).length_le

namespace Phrase

mutual

/-- How many tokens it takes at least to write the phrase. -/
def length : Phrase → Nat
  | number _ | name _ | error => 1
  | neg p | not p => p.length + 1
  | binary _ p q => p.length + q.length + 1
  | call _ args => 2 + lengthAll args

def lengthAll : List Phrase → Nat
  | [] => 0
  | p :: ps => p.length + 1 + lengthAll ps

end

mutual

theorem IsChain.length_le {layers : List (List BinaryOp)} {ts : List Token} {p : Phrase} :
    IsChain layers ts p → p.length ≤ ts.length
  | .tightest h => h.length_le
  | .single h => h.length_le
  | .join _ hp hq => by
    have hp := hp.length_le
    have hq := hq.length_le
    simp only [length, List.length_append, List.length_cons]
    omega

theorem IsPrefixed.length_le {ts : List Token} {p : Phrase} :
    IsPrefixed ts p → p.length ≤ ts.length
  | .neg h | .not h => by simpa only [length, List.length_cons] using Nat.succ_le_succ h.length_le
  | .power h => h.length_le

theorem IsPower.length_le {ts : List Token} {p : Phrase} : IsPower ts p → p.length ≤ ts.length
  | .atom h => h.length_le
  | .raised hp hq => by
    have hp := hp.length_le
    have hq := hq.length_le
    simp only [length, List.length_append, List.length_cons]
    omega

theorem IsAtom.length_le {ts : List Token} {p : Phrase} : IsAtom ts p → p.length ≤ ts.length
  | .number _ | .name _ => Nat.le_refl 1
  | .noArgs _ => by simp [length, lengthAll]
  | .call _ h => by
    have h := h.lengthAll_le
    simp only [length, List.length_cons, List.length_append, List.length_nil]
    omega
  | .group h => by
    have h := h.length_le
    simp only [List.length_cons, List.length_append, List.length_nil]
    omega

theorem IsArgs.lengthAll_le {ts : List Token} {ps : List Phrase} :
    IsArgs ts ps → lengthAll ps ≤ ts.length + 1
  | .one h => by simpa only [lengthAll] using Nat.succ_le_succ h.length_le
  | .more hp hps => by
    have hp := hp.length_le
    have hps := hps.lengthAll_le
    simp only [lengthAll, List.length_append, List.length_cons]
    omega

end

section

variable {scope : Scope} {env : Environment}

mutual

theorem Means.size_le : ∀ {p : Phrase} {t : Term}, Means scope env p t → t.size ≤ p.length
  | _, _, .number _ | _, _, .name (.param _) | _, _, .name (.position ..) | _, _, .name (.constant ..)
  | _, _, .name (.address ..) => Nat.le_refl 1
  | _, _, .literal _ => by simp [length, Term.size]
  | _, _, .neg _ h | _, _, .not h => by
    have h := h.size_le
    simp only [length, Term.size]
    omega
  | _, _, .binary hp hq => by
    have hp := hp.size_le
    have hq := hq.size_le
    simp only [length, Term.size]
    omega
  | _, _, .branch _ hc hp hq => by
    have hc := hc.size_le
    have hp := hp.size_le
    have hq := hq.size_le
    simp only [length, lengthAll, Term.size]
    omega
  | _, _, .log10 _ h | _, _, .unaryCall _ h => by
    have h := h.size_le
    simp only [length, lengthAll, Term.size]
    omega
  | _, _, .logBase _ hp hq | _, _, .binaryCall _ hp hq => by
    have hp := hp.size_le
    have hq := hq.size_le
    simp only [length, lengthAll, Term.size]
    omega
  | _, _, .loop _ _ _ hl hu hb => by
    have hl := hl.size_le
    have hu := hu.size_le
    have hb := hb.size_le
    simp only [length, lengthAll, Term.size]
    omega
  | _, _, .call _ _ _ h => by
    have h := h.sizeAll_le
    simp only [length, Term.size]
    omega

theorem MeansAll.sizeAll_le : ∀ {ps : List Phrase} {ts : List Term}, MeansAll scope env ps ts →
    Term.sizeAll ts ≤ lengthAll ps
  | _, _, .nil => Nat.le_refl 0
  | _, _, .cons h hs => by
    have h := h.size_le
    have hs := hs.sizeAll_le
    simp only [lengthAll, Term.sizeAll]
    omega

end

theorem length_le_of_phraseOf {ts : List Token} {p : Phrase} (h : phraseOf ts = .ok p) :
    p.length ≤ ts.length :=
  IsChain.length_le (phraseOf_eq_ok_iff.1 h)

/-- What a text means has no more nodes than the text has characters. -/
theorem size_le_of_text {text : String} {p : Phrase} {t : Term}
    (h : (tokensOf text >>= phraseOf) = .ok p) (ht : Means scope env p t) : t.size ≤ text.length := by
  obtain ⟨ts, hts, hp⟩ := Term.exists_of_bind_eq_ok h
  exact ht.size_le.trans ((length_le_of_phraseOf hp).trans (length_le_of_tokensOf hts))

end

end Phrase

theorem length_le_nameTokens : ∀ ps : List String, ps.length ≤ (nameTokens ps).length
  | [] => Nat.le_refl 0
  | p :: ps => by
    have hrest : ps.length ≤ (ps.flatMap fun q => [Token.comma, Token.name q]).length := by
      rw [List.length_flatMap]
      simp
      omega
    exact Nat.succ_le_succ hrest

theorem length_of_definition {text : String} {h : Heading} {body : Phrase}
    (hdefinition : definitionOf text = .ok (h, body)) :
    h.params.length + body.length < text.length := by
  obtain ⟨us, htext, hbody⟩ := definitionOf_eq_ok_iff.1 hdefinition
  have hts := length_le_of_tokensOf htext
  have hparams := length_le_nameTokens h.params
  have hrest := Phrase.IsChain.length_le hbody
  simp only [Heading.tokens, List.length_append, List.length_cons, List.length_nil] at hts
  omega

end PrefixCalculus
