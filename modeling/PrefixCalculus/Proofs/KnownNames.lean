import PrefixCalculus.Expression.Printing
import PrefixCalculus.Proofs.PhraseMeaning
set_option autoImplicit false

/-!
Reading where every name is known. Main statement: a phrase that means a term in the environment in
which it is read is read as that term, and the environment stays as it is: the names it has are there
already.
-/

namespace PrefixCalculus

section

variable {scope : Scope} {r : Reading}

theorem Reading.resolve_of_lookup? {name : String} {a : Address} (h : r.env.lookup? name = some a) :
    r.resolve name = (a, r) := by
  rw [Reading.resolve, Environment.resolve_of_lookup? h]

namespace Phrase

theorem meaning_neg {p : Phrase} (h : ∀ x, p ≠ .number x) (r : Reading) :
    (neg p).meaning scope r = (.unary .neg (p.meaning scope r).1, (p.meaning scope r).2) := by
  cases p with
  | number x => exact absurd rfl (h x)
  | _ => rfl

theorem meaning_loop {kind : Fold} {v : String} {a : Address} {lower upper body : Phrase}
    (hscope : v ∉ scope.params) (hresolve : r.resolve v = (a, r)) :
    (call (Term.foldKeyword kind) [name v, lower, upper, body]).meaning scope r
      = let lower := lower.meaning scope r
        let upper := upper.meaning scope lower.2
        let body := body.meaning scope upper.2
        (.loop kind a lower.1 upper.1 body.1, body.2) := by
  have hfold : foldNamed? (Term.foldKeyword kind) = some kind := by cases kind <;> rfl
  have hif : Term.foldKeyword kind ≠ "if" := by cases kind <;> decide
  have hlog : Term.foldKeyword kind ≠ "log" := by cases kind <;> decide
  simp [meaning, hfold, hif, hlog, hscope, hresolve]

theorem foldKeyword_of_foldNamed? {f : String} {kind : Fold} (h : foldNamed? f = some kind) :
    Term.foldKeyword kind = f := by
  unfold foldNamed? at h
  split at h <;> cases h <;> rfl

theorem name_of_operatorNamed? {f : String} {op : Operator} (h : operatorNamed? f = some op) :
    op.name = f := by
  have hname : Operator.ofName? f = some op := by
    rw [operatorNamed?] at h
    split at h <;> cases h <;> assumption
  simpa using List.find?_some hname

theorem meaning_operatorNamed {f : String} {op : Operator} (h : operatorNamed? f = some op)
    {args : List Phrase} (hargs : args.length = op.arity) :
    (call f args).meaning scope r
      = (.operation op (meanings scope args r).1, (meanings scope args r).2) := by
  have hname := name_of_operatorNamed? h
  subst hname
  exact meaning_operation h scope args hargs r

theorem meaning_function {f : String} (hf : NamesFunction f) {id : FunctionId}
    (hid : r.env.functionId? f = some id) {args : List Phrase}
    (hargs : args.length = (((r.env.function? id).map Function.argc).getD 0).toNat) :
    (call f args).meaning scope r
      = (.call id (meanings scope args r).1, (meanings scope args r).2) := by
  simp [meaning, hf.not_fold, hf.not_if, hf.not_log, hf.not_operator, hid, hargs]

theorem meaningOfName_of_names {name : String} {t : Term} (h : scope.Names r.env name t) :
    meaningOfName scope name r = (t.encode, r) := by
  have hposition : (if scope.inFunction then position? name else none) = scope.position? name := rfl
  cases h with
  | param hi => rw [meaningOfName, hi, Term.encode]
  | position hparam hi hlt =>
    rw [meaningOfName, List.idxOf?_eq_none_iff.2 hparam, hposition, hi]
    simp only [hlt, if_true, Term.encode]
  | constant hparam hno hx =>
    rw [meaningOfName, List.idxOf?_eq_none_iff.2 hparam, hposition, hno, meaningOfFreeName, hx,
      Term.encode]
  | address free ha =>
    rw [meaningOfName, List.idxOf?_eq_none_iff.2 free.not_param, hposition, free.not_position,
      meaningOfFreeName, free.not_constant, Reading.resolve_of_lookup? ha, Term.encode]

mutual

theorem Means.meaning : ∀ {p : Phrase} {t : Term}, Means scope r.env p t →
    p.meaning scope r = (t.encode, r)
  | _, _, .number x => rfl
  | _, _, .name h => meaningOfName_of_names h
  | _, _, .literal x => rfl
  | _, _, .neg hp h => by rw [meaning_neg hp, h.meaning, Term.encode]
  | _, _, .not h => by simp only [Phrase.meaning, h.meaning, Term.encode]
  | _, _, .binary hp hq => by simp only [Phrase.meaning, hp.meaning, hq.meaning, Term.encode]
  | _, _, .branch hf hc hp hq => by
    subst hf
    simp only [Phrase.meaning, hc.meaning, hp.meaning, hq.meaning, Term.encode]
  | _, _, .log10 hf h => by
    subst hf
    simp only [Phrase.meaning, h.meaning, Term.encode]
  | _, _, .logBase hf hp hq => by
    subst hf
    simp only [Phrase.meaning, hp.meaning, hq.meaning, Term.encode]
  | _, _, .loop hf hv ha hl hu hb => by
    rw [← foldKeyword_of_foldNamed? hf, meaning_loop hv (Reading.resolve_of_lookup? ha)]
    simp only [hl.meaning, hu.meaning, hb.meaning, Term.encode]
  | _, _, .unaryCall hf h => by
    rw [meaning_operatorNamed hf rfl]
    simp only [Phrase.meanings, h.meaning]
    rfl
  | _, _, .binaryCall hf hp hq => by
    rw [meaning_operatorNamed hf rfl]
    simp only [Phrase.meanings, hp.meaning, hq.meaning]
    rfl
  | _, _, .call hf hid hargc h => by
    rw [meaning_function hf hid hargc, h.meanings, Term.encode]

theorem MeansAll.meanings : ∀ {ps : List Phrase} {ts : List Term}, MeansAll scope r.env ps ts →
    meanings scope ps r = (Term.encodeAll ts, r)
  | _, _, .nil => rfl
  | _, _, .cons h hs => by simp only [Phrase.meanings, h.meaning, hs.meanings, Term.encodeAll]

end

end Phrase

end

end PrefixCalculus
