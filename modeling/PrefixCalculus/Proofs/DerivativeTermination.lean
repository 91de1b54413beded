import PrefixCalculus.Numeric.Series
import PrefixCalculus.Proofs.DerivativeRules
set_option autoImplicit false

/-!
Differentiation ends, whatever the functions call. A call that is entered leaves fewer functions that
are not under way. Otherwise a call that reads a loop variable is replaced for good, so that fewer
functions are left to come to; or else what is differentiated becomes smaller, where a power counts
for more than the exponential that it is rewritten to. Main statement: for functions with valid
bodies, with any calls among them, every differentiation has an outcome from some depth on.
-/

namespace PrefixCalculus

namespace Term

mutual

/-- The size of a term where a power counts for more than the three heads of its exponential. -/
def weight : Term → Nat
  | literal _ | ref _ | arg _ => 1
  | unary _ t => 1 + t.weight
  | binary op a b => (if op = .power then 4 else 1) + a.weight + b.weight
  | branch c a b => 1 + c.weight + a.weight + b.weight
  | loop _ _ lower upper body => 1 + lower.weight + upper.weight + body.weight
  | call _ args => 1 + weightAll args

def weightAll : List Term → Nat
  | [] => 0
  | t :: ts => t.weight + weightAll ts

end

theorem weight_le_weightAll {t : Term} {ts : List Term} (h : t ∈ ts) : t.weight ≤ weightAll ts := by
  induction ts with
  | nil => simp at h
  | cons u ts ih =>
    simp only [weightAll]
    rcases List.mem_cons.1 h with rfl | h
    · omega
    · have := ih h
      omega

theorem weightAll_map {f : Term → Term} {ts : List Term} (h : ∀ t ∈ ts, (f t).weight = t.weight) :
    weightAll (ts.map f) = weightAll ts := by
  induction ts with
  | nil => rfl
  | cons t ts ih =>
    rw [List.map_cons, weightAll, weightAll, h t (by simp), ih fun u hu => h u (by simp [hu])]

theorem weight_replace {address : Address} {value : Term} (hvalue : value.weight = 1) (t : Term) :
    (replace address value t).weight = t.weight := by
  induction t using Term.induction with
  | literal | arg => rfl
  | ref a =>
    rw [replace]
    split
    · exact hvalue
    · rfl
  | unary op t ih => simp only [replace, weight, ih]
  | binary op a b iha ihb => simp only [replace, weight, iha, ihb]
  | branch c a b ihc iha ihb => simp only [replace, weight, ihc, iha, ihb]
  | loop kind v lower upper body ihl ihu ihb =>
    simp only [replace, weight, ihl, ihu]
    split
    · rfl
    · rw [ihb]
  | call f args ih => rw [replace, replaceAll_eq_map, weight, weight, weightAll_map ih]

inductive Operand : Term → Term → Prop
  | operand {op : UnaryOp} {t : Term} : Operand t (unary op t)
  | left {op : BinaryOp} {a b : Term} : Operand a (binary op a b)
  | right {op : BinaryOp} {a b : Term} : Operand b (binary op a b)
  | condition {c a b : Term} : Operand c (branch c a b)
  | yes {c a b : Term} : Operand a (branch c a b)
  | no {c a b : Term} : Operand b (branch c a b)
  | lower {kind : Fold} {v : Address} {lower upper body : Term} :
      Operand lower (loop kind v lower upper body)
  | upper {kind : Fold} {v : Address} {lower upper body : Term} :
      Operand upper (loop kind v lower upper body)
  | body {kind : Fold} {v : Address} {lower upper body : Term} :
      Operand body (loop kind v lower upper body)
  | argument {f : FunctionId} {args : List Term} {t : Term} (h : t ∈ args) : Operand t (call f args)

section

variable {t t' : Term} (h : Operand t' t)
include h

theorem Operand.weight_lt : t'.weight < t.weight := by
  cases h with
  | operand => simp [weight]
  | left | right => simp only [weight]; split <;> omega
  | condition | yes | no | lower | upper | body => simp only [weight]; omega
  | argument ht =>
    have := weight_le_weightAll ht
    simp only [weight]
    omega

theorem Operand.calls_subset : ∀ c ∈ t'.calls, c ∈ t.calls := by
  intro c hc
  cases h with
  | operand => exact hc
  | left | right | condition | yes | no | lower | upper | body => simp [calls, hc]
  | argument ht => exact List.mem_append_left _ (mem_callsAll.2 ⟨t', ht, hc⟩)

theorem Operand.counted (counted : t.Counted) : t'.Counted :=
  fun c hc => counted c (h.calls_subset c hc)

end

/-- The functions that a differentiation can come to: they are called with as many arguments as they
take, in the term or in the body of one of them. -/
inductive ComesTo (env : Environment) (t : Term) : FunctionId → Prop
  | direct {f : FunctionId} {function : Function} (found : env.function? f = some function)
      (called : (f, function.argc.toNat) ∈ t.calls) : ComesTo env t f
  | through {f g : FunctionId} {function callee : Function} {body : Term} (reached : ComesTo env t f)
      (found : env.function? f = some function) (flat : function.body = body.encode)
      (found' : env.function? g = some callee) (called : (g, callee.argc.toNat) ∈ body.calls) :
      ComesTo env t g

section

variable {env : Environment} {address : Address} {t t' : Term} {f : FunctionId}

theorem ComesTo.of_direct (h : ∀ f function, env.function? f = some function →
      (f, function.argc.toNat) ∈ t.calls → ComesTo env t' f) (hf : ComesTo env t f) :
    ComesTo env t' f := by
  induction hf with
  | direct found called => exact h _ _ found called
  | through _ found flat found' called ih => exact .through ih found flat found' called

theorem ComesTo.mono (h : ∀ c ∈ t.calls, c ∈ t'.calls) (hf : ComesTo env t f) : ComesTo env t' f :=
  hf.of_direct fun _ _ found called => .direct found (h _ called)

theorem Expands.comesTo (valid : env.BodiesValid) (h : Expands env address t t')
    (hf : ComesTo env t' f) : ComesTo env t f := by
  induction h with
  | done => exact hf
  | pass _ _ ih =>
    refine (ih hf).of_direct fun g callee found called => ?_
    obtain ⟨called, -⟩ | ⟨c, hc, body, hbody, called⟩ := calls_inlineCalls _ called
    · exact .direct found called
    · obtain ⟨function, found', hargc, flat, -⟩ := readerTerm?_eq_some valid hbody
      exact .through (.direct found' (by rw [hargc]; exact hc)) found' flat found called

theorem ReaderFree.not_dependsOn (valid : env.BodiesValid) (free : ReaderFree env address t)
    {function : Function} (hf : ComesTo env t f) (found : env.function? f = some function) :
    ¬function.body.dependsOnVar address env = true := by
  induction hf generalizing function with
  | direct found' called =>
    rw [found] at found'
    cases found'
    exact (readerTerm?_eq_none_iff valid found rfl).1 (free _ called)
  | through _ found' flat found'' called ih =>
    rw [found] at found''
    cases found''
    intro hdepends
    refine ih found' ((Expression.dependsOnVar_iff _ _ _).2 ?_)
    rw [flat]
    exact .of_reaches (.direct (calls_of_mem_calls _ called)) found
      ((Expression.dependsOnVar_iff _ _ _).1 hdepends)

/-- Where there was a reader, an expansion comes to fewer functions. -/
theorem Expands.countFunctions_lt (valid : env.BodiesValid) (h : Expands env address t t')
    (reads : ¬ReaderFree env address t) :
    env.countFunctions (ComesTo env t') < env.countFunctions (ComesTo env t) := by
  obtain ⟨⟨f, argc⟩, hc, hreader⟩ : ∃ c ∈ t.calls, readerTerm? env address c.1 c.2 ≠ none := by
    simpa [ReaderFree] using reads
  obtain ⟨body, hbody⟩ := Option.ne_none_iff_exists'.1 hreader
  obtain ⟨function, found, rfl, -, -, hdepends⟩ := readerTerm?_eq_some valid hbody
  refine Environment.countFunctions_lt (fun _ hf => h.comesTo valid hf) found (.direct found hc) ?_
  exact fun hf => h.readerFree.not_dependsOn valid hf found hdepends

end

end Term

namespace Derivation

/-- How many functions are not under way, how many the term comes to, and its weight. -/
noncomputable def rank (env : Environment) (s : List FunctionId × Term) : Nat × Nat × Nat :=
  (env.countFunctions (· ∉ s.1), env.countFunctions (Term.ComesTo env s.2), s.2.weight)

def Below (env : Environment) : List FunctionId × Term → List FunctionId × Term → Prop :=
  InvImage (Prod.Lex (· < ·) (Prod.Lex (· < ·) (· < ·))) (rank env)

theorem below_wf (env : Environment) : WellFounded (Below env) :=
  have nat := Nat.lt_wfRel.wf
  InvImage.wf _ (nat.prod_lex (nat.prod_lex nat))

section

variable {env : Environment} {stack : List FunctionId} {t t' : Term}

theorem below_of_comesTo (h : env.countFunctions (Term.ComesTo env t') <
    env.countFunctions (Term.ComesTo env t)) : Below env (stack, t') (stack, t) :=
  .right _ (.left _ _ h)

theorem below_of_weight (hcomes : ∀ f, Term.ComesTo env t' f → Term.ComesTo env t f)
    (hweight : t'.weight < t.weight) : Below env (stack, t') (stack, t) := by
  obtain h | h := Nat.lt_or_eq_of_le (Environment.countFunctions_mono hcomes)
  · exact below_of_comesTo h
  · simp only [Below, InvImage, rank, h]
    exact .right _ (.right _ hweight)

theorem below_of_operand (h : Term.Operand t' t) : Below env (stack, t') (stack, t) :=
  below_of_weight (fun _ hf => hf.mono h.calls_subset) h.weight_lt

theorem below_of_power {a b : Term} : Below env (stack, .unary .exp (.binary .mul (.unary .ln a) b))
    (stack, .binary .power a b) := by
  refine below_of_weight (fun _ hf => hf.mono fun c hc => by exact hc) ?_
  simp only [Term.weight, if_true, reduceCtorEq, if_false]
  omega

theorem below_of_call {f : FunctionId} {function : Function} (found : env.function? f = some function)
    (hf : f ∉ stack) : Below env (f :: stack, t') (stack, t) :=
  .left _ _ (Environment.countFunctions_cons found hf)

/-- A loop's body after an expansion, with a number for the variable, is less than the loop. -/
theorem below_of_expands (valid : env.BodiesValid) {kind : Fold} {v : Address} {lower upper : Term}
    {body : Term} (h : Term.Expands env v body t') (x : Float) :
    Below env (stack, Term.replace v (.const x) t') (stack, .loop kind v lower upper body) := by
  have hbody : ∀ f, Term.ComesTo env body f → Term.ComesTo env (.loop kind v lower upper body) f :=
    fun f hf => hf.mono fun c hc => by simp [Term.calls, hc]
  have hreplace : ∀ f, Term.ComesTo env (Term.replace v (.const x) t') f → Term.ComesTo env t' f :=
    fun f hf => hf.mono fun c hc => by rwa [Term.calls_replace rfl] at hc
  cases h with
  | done free =>
    refine below_of_weight (fun f hf => hbody f (hreplace f hf)) ?_
    rw [Term.weight_replace rfl, Term.weight]
    omega
  | pass reads rest =>
    refine below_of_comesTo ?_
    calc env.countFunctions (Term.ComesTo env (Term.replace v (.const x) t'))
      _ ≤ env.countFunctions (Term.ComesTo env t') := Environment.countFunctions_mono hreplace
      _ < env.countFunctions (Term.ComesTo env body) :=
        Term.Expands.countFunctions_lt valid (.pass reads rest) reads
      _ ≤ env.countFunctions (Term.ComesTo env (.loop kind v lower upper body)) :=
        Environment.countFunctions_mono hbody

end

section

variable [SpecialFunctions]

/-! The descent -/

section

variable {ctx : Derivation} {stack : List FunctionId} {target : Target} {nodes : Array Node}
  {pos : Nat}

theorem ends_null : Ends ctx.descend stack target Expression.null.nodes 0 :=
  (answers_throw (.malformed (.truncated 0))).succ fun _ => rfl

omit [SpecialFunctions] in
theorem hasOutcome_stop (e : Expression) : HasOutcome fun _ => do
    return (e, ← orDefect (operandStop nodes pos)) :=
  (answers_orDefect fun _ _ => trivial).bind fun _ _ => answers_pure trivial

theorem ends_unary {op : UnaryOp} (hn : nodes[pos]? = some (.op (.unary op)))
    (h : HasOutcome fun d => unary .total (ctx.descend d) stack target nodes pos op) :
    Ends ctx.descend stack target nodes pos := by
  refine Answers.succ (x := fun d =>
    if op.isNonDifferentiable then throw (.nonDifferentiable (.unary op))
    else if op.isPiecewiseConstant then do
      return (Folding.zero, ← orDefect (operandStop nodes pos))
    else unary .total (ctx.descend d) stack target nodes pos op) ?_ fun d => by rw [descend, descendBy, hn]
  split
  · exact answers_throw _
  · split
    · exact hasOutcome_stop _
    · exact h

theorem ends_binary {op : BinaryOp} (hn : nodes[pos]? = some (.op (.binary op)))
    (h : HasOutcome fun d => binary .total ctx (ctx.descend d) stack target nodes pos op) :
    Ends ctx.descend stack target nodes pos := by
  refine Answers.succ (x := fun d =>
    if op.isPiecewiseConstant then do
      return (Folding.zero, ← orDefect (operandStop nodes pos))
    else binary .total ctx (ctx.descend d) stack target nodes pos op) ?_ fun d => by rw [descend, descendBy, hn]
  split
  · exact hasOutcome_stop _
  · exact h

end

theorem ends_descend {ctx : Derivation} (valid : ctx.env.BodiesValid) (s : List FunctionId × Term) :
    s.2.Counted → ∀ target nodes pos, Stands nodes pos s.2.encode.nodes →
      Ends ctx.descend s.1 target nodes pos := by
  -- less is left to do for an operand, for a body that is entered and for a loop written out
  induction s using (below_wf ctx.env).induction with
  | _ s ih =>
    obtain ⟨stack, t⟩ := s
    dsimp only
    intro counted target nodes pos h
    have hpart : ∀ {t'}, Term.Operand t' t → ∀ {pos}, Stands nodes pos t'.encode.nodes →
        Ends ctx.descend stack target nodes pos :=
      fun h' _ hstands => ih (stack, _) (below_of_operand h') (h'.counted counted) _ _ _ hstands
    cases t with
    | literal x | ref a | arg i =>
      have hn := stands_singleton.1 h
      exact Answers.succ (answers_pure trivial) fun d => by rw [descend, descendBy, hn]
    | unary op t =>
      obtain ⟨hn, ht⟩ := Term.stands_unary.1 h
      have counted := Term.counted_unary.1 counted
      exact ends_unary hn (hasOutcome_unary op counted ht (hpart .operand ht))
    | binary op a b =>
      obtain ⟨hn, ha, hb⟩ := Term.stands_binary.1 h
      obtain ⟨ca, cb⟩ := Term.counted_binary.1 counted
      refine ends_binary hn
        (hasOutcome_binary op ca cb ha hb (hpart .left ha) (hpart .right hb) ?_)
      rintro rfl
      -- The exponential is no operand, so it is looked for in a buffer of its own.
      have hexp : asExponential a.encode b.encode
          = (Term.unary .exp (.binary .mul (.unary .ln a) b)).encode := rfl
      rw [hexp]
      refine ih (stack, _) below_of_power ?_ _ _ _ (stands_self _)
      rw [Term.counted_unary, Term.counted_binary, Term.counted_unary]
      exact ⟨ca, cb⟩
    | branch c a b =>
      obtain ⟨hn, hc, hyes, hno⟩ := Term.stands_branch.1 h
      obtain ⟨cc, -, -⟩ := Term.counted_branch.1 counted
      have hyes' := hpart .yes (stands_body hyes)
      have hno' := hpart .no (stands_body hno)
      exact Answers.succ (hasOutcome_branch cc hc hyes hno hyes' hno') fun d => by rw [descend, descendBy, hn]
    | loop kind v lower upper body =>
      obtain ⟨hn, hv, hl, hu, hb⟩ := Term.stands_loop.1 h
      obtain ⟨cl, cu, cb⟩ := Term.counted_loop.1 counted
      refine Answers.succ (hasOutcome_loop valid hv cl cu cb hl hu hb ends_null fun t hexpands x => ?_)
        fun d => by rw [descend, descendBy, hn]
      refine ih (stack, _) (below_of_expands valid hexpands x) ?_ _ _ _ (stands_self _)
      intro c hc
      rw [Term.calls_replace rfl] at hc
      exact hexpands.counted valid cb c hc
    | call f args =>
      obtain ⟨hn, hargs⟩ := Term.stands_call.1 h
      obtain ⟨cargs, hlen⟩ := Term.counted_call.1 counted
      refine Answers.succ (hasOutcome_call args hlen cargs hargs
        (fun t ht pos hstands => hpart (.argument ht) hstands) fun function found hf target => ?_)
        fun d => by rw [descend, descendBy, hn]
      obtain hnull | hcheck := valid f function found
      · rw [(Expression.isNull_iff _).1 hnull]
        exact ends_null
      · obtain ⟨body, fits, hbody⟩ := Term.check_eq_ok_iff.1 hcheck
        rw [hbody]
        have counted := Term.counted_of_fits body fits
        exact ih (f :: stack, body) (below_of_call found hf) counted _ _ _ (stands_self _)

/-- Every differentiation comes to a result or an error and keeps it with more depth, for every
environment whose functions have valid bodies or none, with any calls among them. -/
theorem differentiateWithin_ends (env : Environment) (valid : env.BodiesValid) (limit : UInt64)
    (e : Expression) (target : Target) :
    ∃ outcome depth, ∀ more, depth ≤ more →
      (differentiateWithin ⟨env, limit⟩ more e target).run = some outcome := by
  have h : HasOutcome fun d => differentiateWithin ⟨env, limit⟩ d e target := by
    refine (answers_orDefect fun _ hcheck => hcheck).bind fun _ hcheck => ?_
    obtain ⟨t, fits, rfl⟩ := Term.check_eq_ok_iff.1 hcheck
    have counted := Term.counted_of_fits t fits
    exact hasOutcome_whole (ends_descend valid ([], t) counted _ _ _ (stands_self _))
  obtain ⟨error, h⟩ | ⟨d, -, h⟩ := h
  · exact ⟨.error error, h⟩
  · exact ⟨.ok d, h⟩

end

/-- Two functions of one parameter that call each other and read the variable `i`:
`f(x) = g(x) * i` and `g(x) = f(x) ^ i`. -/
def crossedReaders : Environment where
  slots := #[⟨some "i", nan⟩]
  entries :=
    #[⟨⟨"f", 1, (Term.binary .mul (.call ⟨1⟩ [.arg 0]) (.ref ⟨0⟩)).encode⟩, true⟩,
      ⟨⟨"g", 1, (Term.binary .power (.call ⟨0⟩ [.arg 0]) (.ref ⟨0⟩)).encode⟩, true⟩]

theorem bodiesValid_crossedReaders : crossedReaders.BodiesValid := by
  apply Environment.bodiesValid_of_entries
  simp only [crossedReaders, List.mem_toArray, List.forall_mem_cons]
  exact ⟨.inr rfl, .inr rfl, by simp⟩

open Series

/-- The derivative of the sum over `i` from 1 to 3 of `f(i)` by `i`. -/
theorem differentiateWithin_ends_crossedReaders : crossedReaders.BodiesValid ∧
    ∃ outcome depth, ∀ more, depth ≤ more →
      (differentiateWithin ⟨crossedReaders, 4096⟩ more
        (Term.loop .sum ⟨0⟩ (.const 1.0) (.const 3.0) (.call ⟨0⟩ [.ref ⟨0⟩])).encode
        (.var ⟨0⟩)).run = some outcome :=
  ⟨bodiesValid_crossedReaders,
    differentiateWithin_ends crossedReaders bodiesValid_crossedReaders _ _ _⟩

end Derivation

end PrefixCalculus
