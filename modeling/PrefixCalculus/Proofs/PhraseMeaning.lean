import Mathlib.Data.List.Forall2
import PrefixCalculus.Phrase.Meaning
import PrefixCalculus.Proofs.Naming
import PrefixCalculus.Proofs.Registry
import PrefixCalculus.Proofs.UniqueDerivation
import PrefixCalculus.Term
set_option autoImplicit false

/-!
Which term a phrase means in an environment that has an address for each of its names, rule by rule
and without a thread of environments. Main statements: a phrase means one term at most; whatever is
read, nothing but names is added to the environment, and what is read without a fault is the term that
the phrase means in the environment that is left.
-/

namespace PrefixCalculus

namespace Scope

def position? (scope : Scope) (name : String) : Option UInt32 :=
  if scope.inFunction then Phrase.position? name else none

structure IsVariable (scope : Scope) (name : String) : Prop where
  not_param : name ∉ scope.params
  not_position : scope.position? name = none
  not_constant : Phrase.namedConstant? name = none

/-- What a name stands for. -/
inductive Names (scope : Scope) (env : Environment) (name : String) : Term → Prop
  | param {i : Nat} (hi : scope.params.idxOf? name = some i) :
    Names scope env name (.arg (UInt32.ofNat i))
  | position {i : UInt32} (hparam : name ∉ scope.params) (hi : scope.position? name = some i)
    (hlt : i.toNat < scope.params.length) : Names scope env name (.arg i)
  | constant {x : Float} (hparam : name ∉ scope.params) (hposition : scope.position? name = none)
    (hx : Phrase.namedConstant? name = some x) : Names scope env name (.const x)
  | address {a : Address} (free : scope.IsVariable name) (ha : env.lookup? name = some a) :
    Names scope env name (.ref a)

end Scope

namespace Phrase

structure NamesFunction (f : String) : Prop where
  not_if : f ≠ "if"
  not_log : f ≠ "log"
  not_fold : foldNamed? f = none
  not_operator : operatorNamed? f = none

mutual

/-- The phrase means the term. -/
inductive Means (scope : Scope) (env : Environment) : Phrase → Term → Prop
  | number (x : Float) : Means scope env (.number x) (.const x)
  | name {s : String} {t : Term} (h : scope.Names env s t) : Means scope env (.name s) t
  | literal (x : Float) : Means scope env (.neg (.number x)) (.const (-x))
  | neg {p : Phrase} {t : Term} (hp : ∀ x, p ≠ .number x) (h : Means scope env p t) :
    Means scope env (.neg p) (.unary .neg t)
  | not {p : Phrase} {t : Term} (h : Means scope env p t) : Means scope env (.not p) (.unary .not t)
  | binary {op : BinaryOp} {p q : Phrase} {t u : Term} (hp : Means scope env p t)
    (hq : Means scope env q u) : Means scope env (.binary op p q) (.binary op t u)
  | branch {f : String} {c p q : Phrase} {s t u : Term} (hf : f = "if") (hc : Means scope env c s)
    (hp : Means scope env p t) (hq : Means scope env q u) :
    Means scope env (.call f [c, p, q]) (.branch s t u)
  | log10 {f : String} {p : Phrase} {t : Term} (hf : f = "log") (h : Means scope env p t) :
    Means scope env (.call f [p]) (.unary .log10 t)
  | logBase {f : String} {p q : Phrase} {t u : Term} (hf : f = "log") (hp : Means scope env p t)
    (hq : Means scope env q u) : Means scope env (.call f [p, q]) (.binary .logBase t u)
  | loop {f v : String} {kind : Fold} {a : Address} {lower upper body : Phrase} {l u b : Term}
    (hf : foldNamed? f = some kind) (hv : v ∉ scope.params) (ha : env.lookup? v = some a)
    (hl : Means scope env lower l) (hu : Means scope env upper u) (hb : Means scope env body b) :
    Means scope env (.call f [.name v, lower, upper, body]) (.loop kind a l u b)
  | unaryCall {f : String} {op : UnaryOp} {p : Phrase} {t : Term}
    (hf : operatorNamed? f = some (.unary op)) (h : Means scope env p t) :
    Means scope env (.call f [p]) (.unary op t)
  | binaryCall {f : String} {op : BinaryOp} {p q : Phrase} {t u : Term}
    (hf : operatorNamed? f = some (.binary op)) (hp : Means scope env p t)
    (hq : Means scope env q u) : Means scope env (.call f [p, q]) (.binary op t u)
  | call {f : String} {id : FunctionId} {ps : List Phrase} {ts : List Term}
    (hf : NamesFunction f) (hid : env.functionId? f = some id)
    (hargc : ps.length = (((env.function? id).map Function.argc).getD 0).toNat)
    (h : MeansAll scope env ps ts) : Means scope env (.call f ps) (.call id ts)

inductive MeansAll (scope : Scope) (env : Environment) : List Phrase → List Term → Prop
  | nil : MeansAll scope env [] []
  | cons {p : Phrase} {ps : List Phrase} {t : Term} {ts : List Term} (h : Means scope env p t)
    (hs : MeansAll scope env ps ts) : MeansAll scope env (p :: ps) (t :: ts)

end

theorem meansAll_iff {scope : Scope} {env : Environment} {ps : List Phrase} {ts : List Term} :
    MeansAll scope env ps ts ↔ List.Forall₂ (Means scope env) ps ts := by
  constructor
  · intro h
    induction ps generalizing ts with
    | nil => cases h; exact .nil
    | cons p ps ih => cases h with | cons hp hps => exact .cons hp (ih hps)
  · intro h
    induction h with
    | nil => exact .nil
    | cons hp _ ih => exact .cons hp ih

inductive Complete : Phrase → Prop
  | number (x : Float) : Complete (.number x)
  | name (s : String) : Complete (.name s)
  | neg {p : Phrase} (h : Complete p) : Complete (.neg p)
  | not {p : Phrase} (h : Complete p) : Complete (.not p)
  | binary {op : BinaryOp} {p q : Phrase} (hp : Complete p) (hq : Complete q) :
    Complete (.binary op p q)
  | call {f : String} {args : List Phrase} (h : ∀ p ∈ args, Complete p) : Complete (.call f args)

mutual

theorem IsChain.complete {layers : List (List BinaryOp)} {ts : List Token} {p : Phrase} :
    IsChain layers ts p → p.Complete
  | .tightest h => h.complete
  | .single h => h.complete
  | .join _ hp hq => .binary hp.complete hq.complete

theorem IsPrefixed.complete {ts : List Token} {p : Phrase} : IsPrefixed ts p → p.Complete
  | .neg h => .neg h.complete
  | .not h => .not h.complete
  | .power h => h.complete

theorem IsPower.complete {ts : List Token} {p : Phrase} : IsPower ts p → p.Complete
  | .atom h => h.complete
  | .raised hp hq => .binary hp.complete hq.complete

theorem IsAtom.complete {ts : List Token} {p : Phrase} : IsAtom ts p → p.Complete
  | .number x => .number x
  | .name s => .name s
  | .noArgs _ => .call (List.forall_mem_nil _)
  | .call _ h => .call h.complete
  | .group h => h.complete

theorem IsArgs.complete {ts : List Token} {ps : List Phrase} : IsArgs ts ps → ∀ p ∈ ps, p.Complete
  | .one h => List.forall_mem_singleton.2 h.complete
  | .more hp hps => List.forall_mem_cons.2 ⟨hp.complete, hps.complete⟩

end

end Phrase

/-! Names that are added change no meaning -/

section

variable {scope : Scope} {env after : Environment}

theorem Scope.Names.mono (names : env.Adds after) {name : String} {t : Term}
    (h : scope.Names env name t) : scope.Names after name t := by
  cases h with
  | param hi => exact .param hi
  | position hparam hi hlt => exact .position hparam hi hlt
  | constant hparam hposition hx => exact .constant hparam hposition hx
  | address free ha => exact .address free (names.lookup? ha)

namespace Phrase

mutual

theorem Means.mono (names : env.Adds after) (functions : env.SameSignatures after) :
    ∀ {p : Phrase} {t : Term}, Means scope env p t → Means scope after p t
  | _, _, .number x => .number x
  | _, _, .name h => .name (h.mono names)
  | _, _, .literal x => .literal x
  | _, _, .neg hp h => .neg hp (h.mono names functions)
  | _, _, .not h => .not (h.mono names functions)
  | _, _, .binary hp hq => .binary (hp.mono names functions) (hq.mono names functions)
  | _, _, .branch hf hc hp hq =>
    .branch hf (hc.mono names functions) (hp.mono names functions) (hq.mono names functions)
  | _, _, .log10 hf h => .log10 hf (h.mono names functions)
  | _, _, .logBase hf hp hq => .logBase hf (hp.mono names functions) (hq.mono names functions)
  | _, _, .loop hf hv ha hl hu hb =>
    .loop hf hv (names.lookup? ha) (hl.mono names functions) (hu.mono names functions)
      (hb.mono names functions)
  | _, _, .unaryCall hf h => .unaryCall hf (h.mono names functions)
  | _, _, .binaryCall hf hp hq => .binaryCall hf (hp.mono names functions) (hq.mono names functions)
  | _, _, .call hf hid hargc h =>
    .call hf (by rw [functions.functionId?, hid]) (by rw [functions.argc, hargc])
      (h.mono names functions)

theorem MeansAll.mono (names : env.Adds after) (functions : env.SameSignatures after) :
    ∀ {ps : List Phrase} {ts : List Term}, MeansAll scope env ps ts → MeansAll scope after ps ts
  | _, _, .nil => .nil
  | _, _, .cons h hs => .cons (h.mono names functions) (hs.mono names functions)

end

end Phrase

end

/-! A phrase means one term at most -/

section

variable {scope : Scope} {env : Environment}

theorem Scope.Names.unique {name : String} {t t' : Term} (h : scope.Names env name t)
    (h' : scope.Names env name t') : t = t' := by
  have known : ∀ {i}, scope.params.idxOf? name = some i → name ∈ scope.params := fun hi => by
    by_contra hnot
    rw [List.idxOf?_eq_none_iff.2 hnot] at hi
    cases hi
  cases h with
  | param hi =>
    cases h' with
    | param hi' => rw [Option.some.inj (hi.symm.trans hi')]
    | position hparam | constant hparam => exact absurd (known hi) hparam
    | address free => exact absurd (known hi) free.not_param
  | position hparam hi =>
    cases h' with
    | param hi' => exact absurd (known hi') hparam
    | position _ hi' => rw [Option.some.inj (hi.symm.trans hi')]
    | constant _ hnone => exact absurd (hi.symm.trans hnone) (Option.some_ne_none _)
    | address free => exact absurd (hi.symm.trans free.not_position) (Option.some_ne_none _)
  | constant hparam hposition hx =>
    cases h' with
    | param hi => exact absurd (known hi) hparam
    | position _ hi => exact absurd (hi.symm.trans hposition) (Option.some_ne_none _)
    | constant _ _ hx' => rw [Option.some.inj (hx.symm.trans hx')]
    | address free => exact absurd (hx.symm.trans free.not_constant) (Option.some_ne_none _)
  | address free ha =>
    cases h' with
    | param hi => exact absurd (known hi) free.not_param
    | position _ hi => exact absurd (hi.symm.trans free.not_position) (Option.some_ne_none _)
    | constant _ _ hx => exact absurd (hx.symm.trans free.not_constant) (Option.some_ne_none _)
    | address _ ha' => rw [Option.some.inj (ha.symm.trans ha')]

namespace Phrase

theorem ne_log_of_operatorNamed? {f : String} {op : Operator} (h : operatorNamed? f = some op) :
    f ≠ "log" := by
  rintro rfl
  cases h

mutual

theorem Means.unique : ∀ {p : Phrase} {t t' : Term}, Means scope env p t → Means scope env p t' →
    t = t'
  | _, _, _, .number x, h' => by cases h'; rfl
  | _, _, _, .name h, h' => by cases h' with | name h' => exact h.unique h'
  | _, _, _, .literal x, h' => by
    cases h' with
    | literal => rfl
    | neg hp => exact absurd rfl (hp x)
  | _, _, _, .neg hp h, h' => by
    cases h' with
    | literal x => exact absurd rfl (hp x)
    | neg _ h' => rw [h.unique h']
  | _, _, _, .not h, h' => by cases h' with | not h' => rw [h.unique h']
  | _, _, _, .binary hp hq, h' => by
    cases h' with | binary hp' hq' => rw [hp.unique hp', hq.unique hq']
  | _, _, _, .branch hf hc hp hq, h' => by
    cases h' with
    | branch _ hc' hp' hq' => rw [hc.unique hc', hp.unique hp', hq.unique hq']
    | call hf' => exact absurd hf hf'.not_if
  | _, _, _, .log10 hf h, h' => by
    cases h' with
    | log10 _ h' => rw [h.unique h']
    | unaryCall hf' => exact absurd hf (ne_log_of_operatorNamed? hf')
    | call hf' => exact absurd hf hf'.not_log
  | _, _, _, .logBase hf hp hq, h' => by
    cases h' with
    | logBase _ hp' hq' => rw [hp.unique hp', hq.unique hq']
    | binaryCall hf' => exact absurd hf (ne_log_of_operatorNamed? hf')
    | call hf' => exact absurd hf hf'.not_log
  | _, _, _, .loop hf hv ha hl hu hb, h' => by
    cases h' with
    | loop hf' _ ha' hl' hu' hb' =>
      cases hf.symm.trans hf'
      cases ha.symm.trans ha'
      rw [hl.unique hl', hu.unique hu', hb.unique hb']
    | call hf' => exact absurd (hf.symm.trans hf'.not_fold) (Option.some_ne_none _)
  | _, _, _, .unaryCall hf h, h' => by
    cases h' with
    | log10 hf' => exact absurd hf' (ne_log_of_operatorNamed? hf)
    | unaryCall hf' h' =>
      cases hf.symm.trans hf'
      rw [h.unique h']
    | call hf' => exact absurd (hf.symm.trans hf'.not_operator) (Option.some_ne_none _)
  | _, _, _, .binaryCall hf hp hq, h' => by
    cases h' with
    | logBase hf' => exact absurd hf' (ne_log_of_operatorNamed? hf)
    | binaryCall hf' hp' hq' =>
      cases hf.symm.trans hf'
      rw [hp.unique hp', hq.unique hq']
    | call hf' => exact absurd (hf.symm.trans hf'.not_operator) (Option.some_ne_none _)
  | _, _, _, .call hf hid hargc h, h' => by
    cases h' with
    | branch hf' => exact absurd hf' hf.not_if
    | log10 hf' => exact absurd hf' hf.not_log
    | logBase hf' => exact absurd hf' hf.not_log
    | loop hf' => exact absurd (hf'.symm.trans hf.not_fold) (Option.some_ne_none _)
    | unaryCall hf' => exact absurd (hf'.symm.trans hf.not_operator) (Option.some_ne_none _)
    | binaryCall hf' => exact absurd (hf'.symm.trans hf.not_operator) (Option.some_ne_none _)
    | call _ hid' _ h' =>
      cases hid.symm.trans hid'
      rw [h.unique h']

theorem MeansAll.unique : ∀ {ps : List Phrase} {ts ts' : List Term}, MeansAll scope env ps ts →
    MeansAll scope env ps ts' → ts = ts'
  | _, _, _, .nil, h' => by cases h'; rfl
  | _, _, _, .cons h hs, h' => by cases h' with | cons h' hs' => rw [h.unique h', hs.unique hs']

end

end Phrase

end

/-! What reading comes to -/

namespace Reading

structure Grows (r after : Reading) : Prop where
  names : r.env.Adds after.env
  functions : after.env.entries = r.env.entries
  faults : after.error? = none → r.error? = none

section

variable {r mid after : Reading}

theorem Grows.refl (r : Reading) : r.Grows r :=
  ⟨.refl r.env, rfl, id⟩

theorem Grows.trans (h : r.Grows mid) (h' : mid.Grows after) : r.Grows after :=
  ⟨h.names.trans h'.names, h'.functions.trans h.functions, fun hnone => h.faults (h'.faults hnone)⟩

theorem error?_eq_none_iff : r.error? = none ↔ r.unknown = none ∧ r.diagnostics = [] := by
  obtain ⟨env, diagnostics, unknown⟩ := r
  cases unknown <;> cases diagnostics <;> simp [error?]

theorem grows_resolve (r : Reading) (name : String) : r.Grows (r.resolve name).2 :=
  ⟨Environment.adds_resolve r.env name, Environment.entries_resolve r.env name, id⟩

theorem error?_refuse (r : Reading) (d : Diagnostic) : (r.refuse d).2.error? ≠ none := by
  rw [Ne, error?_eq_none_iff]
  exact fun h => List.cons_ne_nil _ _ h.2

theorem grows_refuse (r : Reading) (d : Diagnostic) : r.Grows (r.refuse d).2 :=
  ⟨.refl r.env, rfl, fun h => absurd h (error?_refuse r d)⟩

theorem error?_refuseFunction (r : Reading) (name : String) :
    (r.refuseFunction name).2.error? ≠ none := by
  rw [refuseFunction]
  split
  · rw [Ne, error?_eq_none_iff]
    exact fun h => Option.some_ne_none _ h.1
  · exact error?_refuse r _

theorem grows_refuseFunction (r : Reading) (name : String) : r.Grows (r.refuseFunction name).2 := by
  refine ⟨?_, ?_, fun h => absurd h (error?_refuseFunction r name)⟩
  · rw [refuseFunction]
    split
    · exact .refl r.env
    · exact (grows_refuse r _).names
  · rw [refuseFunction]
    split <;> rfl

end

end Reading

namespace Phrase

variable {scope : Scope}

/-- Reading the phrase has grown, and without a fault the expression is that of a term it means. -/
structure Yields (scope : Scope) (p : Phrase) (r : Reading) (result : Expression × Reading) :
    Prop where
  grows : r.Grows result.2
  term : result.2.error? = none → ∃ t, Means scope result.2.env p t ∧ result.1 = t.encode

@[inherit_doc Yields]
structure YieldsAll (scope : Scope) (ps : List Phrase) (r : Reading)
    (result : List Expression × Reading) : Prop where
  grows : r.Grows result.2
  terms : result.2.error? = none →
    ∃ ts, MeansAll scope result.2.env ps ts ∧ result.1 = Term.encodeAll ts

theorem yields_refuse (p : Phrase) (r : Reading) (d : Diagnostic) : Yields scope p r (r.refuse d) :=
  ⟨r.grows_refuse d, fun h => absurd h (r.error?_refuse d)⟩

theorem yields_refuseFunction (p : Phrase) (r : Reading) (name : String) :
    Yields scope p r (r.refuseFunction name) :=
  ⟨r.grows_refuseFunction name, fun h => absurd h (r.error?_refuseFunction name)⟩

theorem yields_name (name : String) (r : Reading) :
    Yields scope (.name name) r (meaningOfName scope name r) := by
  have hin : (if scope.inFunction then position? name else none) = scope.position? name := rfl
  rw [meaningOfName]
  split
  · rename_i i hi
    exact ⟨.refl r, fun _ => ⟨_, .name (.param hi), rfl⟩⟩
  · rename_i hparam
    have hparam : name ∉ scope.params := List.idxOf?_eq_none_iff.1 hparam
    rw [hin]
    split
    · rename_i i hi
      split
      · rename_i hlt
        exact ⟨.refl r, fun _ => ⟨_, .name (.position hparam hi hlt), rfl⟩⟩
      · exact yields_refuse _ r _
    · rename_i hposition
      rw [meaningOfFreeName]
      split
      · rename_i x hx
        exact ⟨.refl r, fun _ => ⟨_, .name (.constant hparam hposition hx), rfl⟩⟩
      · rename_i hconstant
        refine ⟨r.grows_resolve name, fun _ => ⟨_, .name (.address ?_ ?_), rfl⟩⟩
        · exact ⟨hparam, hposition, hconstant⟩
        · exact Environment.lookup?_resolve r.env name

theorem yields_meanings {ps : List Phrase}
    (h : ∀ p ∈ ps, ∀ r, Yields scope p r (p.meaning scope r)) :
    ∀ r, YieldsAll scope ps r (meanings scope ps r) := by
  induction ps with
  | nil => exact fun r => ⟨.refl r, fun _ => ⟨[], .nil, rfl⟩⟩
  | cons p ps ih =>
    intro r
    have hp := h p List.mem_cons_self r
    have hps := ih (fun q hq => h q (List.mem_cons_of_mem p hq)) (p.meaning scope r).2
    refine ⟨hp.grows.trans hps.grows, fun hnone => ?_⟩
    obtain ⟨ts, hts, hes⟩ := hps.terms hnone
    obtain ⟨t, ht, he⟩ := hp.term (hps.grows.faults hnone)
    refine ⟨t :: ts, .cons (ht.mono hps.grows.names (.of_entries hps.grows.functions)) hts, ?_⟩
    rw [Term.encodeAll, ← he, ← hes]
    rfl

theorem YieldsAll.yields {p : Phrase} {ps : List Phrase} {r : Reading}
    {result : List Expression × Reading} (h : YieldsAll scope ps r result) {e : Expression}
    (make : ∀ ts, MeansAll scope result.2.env ps ts → result.1 = Term.encodeAll ts →
      ∃ t, Means scope result.2.env p t ∧ e = t.encode) : Yields scope p r (e, result.2) := by
  refine ⟨h.grows, fun hnone => ?_⟩
  obtain ⟨ts, hts, hes⟩ := h.terms hnone
  exact make ts hts hes

section

variable {p q c : Phrase} (hp : ∀ r, Yields scope p r (p.meaning scope r))
include hp

theorem yields_unary {whole : Phrase} {op : UnaryOp}
    (rule : ∀ env t, Means scope env p t → Means scope env whole (.unary op t)) (r : Reading) :
    Yields scope whole r (.unary op (p.meaning scope r).1, (p.meaning scope r).2) := by
  refine ⟨(hp r).grows, fun hnone => ?_⟩
  obtain ⟨t, ht, he⟩ := (hp r).term hnone
  exact ⟨.unary op t, rule _ t ht, by rw [he, Term.encode]⟩

theorem yields_neg (r : Reading) : Yields scope (neg p) r ((neg p).meaning scope r) := by
  by_cases hnumber : ∃ x, p = number x
  · obtain ⟨x, rfl⟩ := hnumber
    exact ⟨.refl r, fun _ => ⟨.const (-x), .literal x, rfl⟩⟩
  · have hnumber : ∀ x, p ≠ number x := fun x hx => hnumber ⟨x, hx⟩
    rw [meaning]
    · exact yields_unary hp (fun _ _ => .neg hnumber) r
    · exact hnumber

variable (hq : ∀ r, Yields scope q r (q.meaning scope r))
include hq

theorem yields_binary {whole : Phrase} {op : BinaryOp}
    (rule : ∀ env t u, Means scope env p t → Means scope env q u →
      Means scope env whole (.binary op t u)) (r : Reading) :
    Yields scope whole r (.binary op (p.meaning scope r).1 (q.meaning scope (p.meaning scope r).2).1,
      (q.meaning scope (p.meaning scope r).2).2) := by
  have hall : YieldsAll scope [p, q] r (meanings scope [p, q] r) :=
    yields_meanings (by simp [hp, hq]) r
  refine hall.yields fun ts hts hes => ?_
  obtain _ | ⟨ht, _ | ⟨hu, _ | _⟩⟩ := hts
  simp only [meanings, Term.encodeAll, List.cons.injEq, and_true] at hes
  exact ⟨_, rule _ _ _ ht hu, by rw [hes.1, hes.2, Term.encode]⟩

end

theorem yields_branch {c p q : Phrase}
    (h : ∀ p' ∈ [c, p, q], ∀ r, Yields scope p' r (p'.meaning scope r)) (r : Reading) :
    Yields scope (call "if" [c, p, q]) r ((call "if" [c, p, q]).meaning scope r) := by
  refine (yields_meanings h r).yields fun ts hts hes => ?_
  obtain _ | ⟨hs, _ | ⟨ht, _ | ⟨hu, _ | _⟩⟩⟩ := hts
  simp only [meanings, Term.encodeAll, List.cons.injEq, and_true] at hes
  exact ⟨_, .branch rfl hs ht hu, by rw [hes.1, hes.2.1, hes.2.2, Term.encode]⟩

theorem yields_loop {f : String} {kind : Fold} (hf : foldNamed? f = some kind)
    {v : String} (hv : v ∉ scope.params) {lower upper body : Phrase}
    (h : ∀ p ∈ [lower, upper, body], ∀ r, Yields scope p r (p.meaning scope r)) (r : Reading) :
    Yields scope (call f [name v, lower, upper, body]) r
      (.loop kind (r.resolve v).1 (lower.meaning scope (r.resolve v).2).1
          (upper.meaning scope (lower.meaning scope (r.resolve v).2).2).1
          (body.meaning scope (upper.meaning scope (lower.meaning scope (r.resolve v).2).2).2).1,
        (meanings scope [lower, upper, body] (r.resolve v).2).2) := by
  have hall := yields_meanings h (r.resolve v).2
  have ha : (r.resolve v).2.env.lookup? v = some (r.resolve v).1 :=
    Environment.lookup?_resolve r.env v
  refine YieldsAll.yields ⟨(r.grows_resolve v).trans hall.grows, hall.terms⟩ fun ts hts hes => ?_
  obtain _ | ⟨hl, _ | ⟨hu, _ | ⟨hb, _ | _⟩⟩⟩ := hts
  simp only [meanings, Term.encodeAll, List.cons.injEq, and_true] at hes
  exact ⟨_, .loop hf hv (hall.grows.names.lookup? ha) hl hu hb,
    by rw [hes.1, hes.2.1, hes.2.2, Term.encode]⟩

theorem exists_of_operatorNamed? {f : String} {op : Operator} (hf : operatorNamed? f = some op) :
    (∃ op', op = .unary op') ∨ ∃ op', op = .binary op' := by
  rw [operatorNamed?] at hf
  split at hf <;> cases hf
  · exact .inl ⟨_, rfl⟩
  · exact .inr ⟨_, rfl⟩

theorem yields_operation {f : String} {op : Operator} (hf : operatorNamed? f = some op)
    {args : List Phrase} (hargs : args.length = op.arity)
    (h : ∀ p ∈ args, ∀ r, Yields scope p r (p.meaning scope r)) (r : Reading) :
    Yields scope (call f args) r
      (.operation op (meanings scope args r).1, (meanings scope args r).2) := by
  refine (yields_meanings h r).yields fun ts hts hes => ?_
  rw [hes]
  obtain ⟨op, rfl⟩ | ⟨op, rfl⟩ := exists_of_operatorNamed? hf
  · obtain ⟨p, rfl⟩ := List.length_eq_one_iff.1 hargs
    obtain _ | ⟨ht, _ | _⟩ := hts
    exact ⟨_, .unaryCall hf ht, rfl⟩
  · obtain ⟨p, q, rfl⟩ := List.length_eq_two.1 hargs
    obtain _ | ⟨ht, _ | ⟨hu, _ | _⟩⟩ := hts
    exact ⟨_, .binaryCall hf ht hu, rfl⟩

theorem yields_function {f : String} (hf : NamesFunction f) {r : Reading} {id : FunctionId}
    (hid : r.env.functionId? f = some id) {args : List Phrase}
    (hargs : args.length = (((r.env.function? id).map Function.argc).getD 0).toNat)
    (h : ∀ p ∈ args, ∀ r, Yields scope p r (p.meaning scope r)) :
    Yields scope (call f args) r (.call id (meanings scope args r).1, (meanings scope args r).2) := by
  have hall := yields_meanings h r
  refine hall.yields fun ts hts hes => ⟨.call id ts, ?_, by rw [hes, Term.encode]⟩
  have same := Environment.SameSignatures.of_entries hall.grows.functions
  exact .call hf (by rw [same.functionId?, hid]) (by rw [same.argc, hargs]) hts

theorem yields_call {f : String} {args : List Phrase}
    (h : ∀ p ∈ args, ∀ r, Yields scope p r (p.meaning scope r)) (r : Reading) :
    Yields scope (call f args) r ((call f args).meaning scope r) := by
  rw [meaning.eq_def]
  split <;> rename_i heq <;> cases heq
  · exact yields_branch h _
  · exact yields_unary (h _ (by simp)) (fun _ _ => .log10 rfl) _
  · exact yields_binary (h _ (by simp)) (h _ (by simp)) (fun _ _ _ => .logBase rfl) _
  · split
    next kind first lower upper body hfold _ _ _ =>
      cases first with
      | name v =>
        dsimp only
        split
        · exact yields_refuse _ _ _
        next hv =>
          have hv : v ∉ scope.params := by simpa using hv
          exact yields_loop hfold hv (fun p hp => h p (List.mem_cons_of_mem _ hp)) _
      | _ => exact yields_refuse _ _ _
    · exact yields_refuse _ _ _
    next hfold _ _ _ =>
      split
      · exact yields_refuse _ _ _
      next hif =>
        split
        · exact yields_refuse _ _ _
        next hlog =>
          split
          next op hop =>
            split
            next hargs => exact yields_operation hop hargs h _
            · exact yields_refuse _ _ _
          next hop =>
            split
            · exact yields_refuseFunction _ _ _
            next id hid =>
              dsimp only
              split
              next hargs => exact yields_function ⟨hif, hlog, hfold, hop⟩ hid hargs h
              · exact yields_refuse _ _ _

/-- Whatever is read, nothing but names is added, and without a fault the expression is that of a term
that the phrase means in the environment left behind. -/
theorem yields_meaning {p : Phrase} (complete : p.Complete) :
    ∀ r, Yields scope p r (p.meaning scope r) := by
  induction complete with
  | number x => exact fun r => ⟨.refl r, fun _ => ⟨.const x, .number x, rfl⟩⟩
  | name s => exact yields_name s
  | neg _ ih => exact yields_neg ih
  | not _ ih => exact yields_unary ih fun _ _ => .not
  | binary _ _ hp hq => exact yields_binary hp hq fun _ _ _ => .binary
  | call _ h => exact yields_call h

end Phrase

/-! Texts -/

theorem phraseOf_eq_ok_iff {ts : List Token} {p : Phrase} :
    phraseOf ts = .ok p ↔ Phrase.Denotes ts p :=
  Combinators.readPhrase_eq_ok_iff reader_lawful

theorem complete_of_text {text : String} {p : Phrase}
    (h : (tokensOf text >>= phraseOf) = .ok p) : p.Complete := by
  cases htokens : tokensOf text with
  | error e =>
    rw [htokens] at h
    cases h
  | ok ts =>
    rw [htokens] at h
    exact (phraseOf_eq_ok_iff.1 h).complete

namespace Environment

inductive ParseText (env : Environment) (text : String) :
    Except TextError Expression × Environment → Prop
  | refused {error : TextError} (h : (tokensOf text >>= phraseOf) = .error error) :
    ParseText env text (.error error, env)
  | failed {p : Phrase} {error : TextError} (phrase : (tokensOf text >>= phraseOf) = .ok p)
    (fault : (p.meaning ⟨[], false⟩ (.start env)).2.error? = some error) :
    ParseText env text (.error error, (p.meaning ⟨[], false⟩ (.start env)).2.env)
  | accepted {p : Phrase} (phrase : (tokensOf text >>= phraseOf) = .ok p)
    (faultless : (p.meaning ⟨[], false⟩ (.start env)).2.error? = none) :
    ParseText env text (.ok (p.meaning ⟨[], false⟩ (.start env)).1,
      (p.meaning ⟨[], false⟩ (.start env)).2.env)

theorem parse_eq (env : Environment) (text : String) :
    env.parse text = match tokensOf text >>= phraseOf with
      | .error e => (.error e, env)
      | .ok p =>
        match (p.meaning ⟨[], false⟩ (.start env)).2.error? with
        | some error => (.error error, (p.meaning ⟨[], false⟩ (.start env)).2.env)
        | none => (.ok (p.meaning ⟨[], false⟩ (.start env)).1,
            (p.meaning ⟨[], false⟩ (.start env)).2.env) :=
  rfl

theorem parse_cases (env : Environment) (text : String) : ParseText env text (env.parse text) := by
  rw [parse_eq]
  split
  next h => exact .refused h
  next p phrase =>
    split
    next fault => exact .failed phrase fault
    next faultless => exact .accepted phrase faultless

theorem exists_of_parse_ok {env after : Environment} {text : String} {e : Expression}
    (h : env.parse text = (.ok e, after)) :
    ∃ p t, (tokensOf text >>= phraseOf) = .ok p ∧ Phrase.Means ⟨[], false⟩ after p t ∧
      e = t.encode := by
  have hcases := env.parse_cases text
  rw [h] at hcases
  cases hcases with
  | @accepted p phrase faultless =>
    obtain ⟨t, ht, he⟩ := (Phrase.yields_meaning (complete_of_text phrase) _).term faultless
    exact ⟨p, t, phrase, ht, he⟩

end Environment

end PrefixCalculus
