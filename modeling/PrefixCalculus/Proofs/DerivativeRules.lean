import PrefixCalculus.Proofs.FlatEvaluation
import PrefixCalculus.Proofs.Unrolling
set_option autoImplicit false

/-!
Outcomes of the rules of differentiation where flat forms stand. An attempt is looked at with more and
more depth, and has an outcome if it comes to one error or one result. Main statements: each rule has
an outcome if the descents that it makes have one; every operand that it cuts out is a flat form again.
-/

namespace PrefixCalculus

/-- From some depth on the attempt has one outcome: an error, or a result with the property. -/
def Answers {α : Type} (x : Nat → Attempt α) (P : α → Prop) : Prop :=
  (∃ e, Term.Settles (fun d => (x d).run) (.error e)) ∨
    ∃ a, P a ∧ Term.Settles (fun d => (x d).run) (.ok a)

abbrev HasOutcome {α : Type} (x : Nat → Attempt α) : Prop :=
  Answers x fun _ => True

section

variable {α β : Type} {P : α → Prop} {Q : β → Prop}

theorem answers_pure {a : α} (h : P a) : Answers (fun _ => (pure a : Attempt α)) P :=
  .inr ⟨a, h, Term.settles_some _⟩

theorem answers_throw (e : DerivativeError) : Answers (fun _ => (throw e : Attempt α)) P :=
  .inl ⟨e, Term.settles_some _⟩

theorem Answers.bind {x : Nat → Attempt α} {f : Nat → α → Attempt β} (hx : Answers x P)
    (hf : ∀ a, P a → Answers (fun d => f d a) Q) : Answers (fun d => x d >>= f d) Q := by
  obtain ⟨e, hx⟩ | ⟨a, ha, hx⟩ := hx
  · refine .inl ⟨e, ?_⟩
    simp only [ExceptT.run_bind]
    exact Term.settles_bind hx (Term.settles_some _)
  · obtain ⟨e, hf⟩ | ⟨b, hb, hf⟩ := hf a ha
    · refine .inl ⟨e, ?_⟩
      simp only [ExceptT.run_bind]
      exact Term.settles_bind hx hf
    · refine .inr ⟨b, hb, ?_⟩
      simp only [ExceptT.run_bind]
      exact Term.settles_bind hx hf

theorem Answers.succ {x y : Nat → Attempt α} (h : Answers x P) (hy : ∀ d, y (d + 1) = x d) :
    Answers y P := by
  have hsettles : ∀ {r}, Term.Settles (fun d => (x d).run) r →
      Term.Settles (fun d => (y d).run) r := by
    rintro r ⟨d, hd⟩
    refine ⟨d + 1, fun k hk => ?_⟩
    obtain ⟨k, rfl⟩ := Nat.exists_eq_add_of_le' hk
    have hk : (x (k + d)).run = some r := hd (k + d) (Nat.le_add_left _ _)
    rwa [← hy] at hk
  exact h.imp (Exists.imp fun _ => hsettles) (Exists.imp fun _ => And.imp_right hsettles)

theorem answers_orDefect {r : Except Defect α} (h : ∀ a, r = .ok a → P a) :
    Answers (fun _ => Derivation.orDefect r) P := by
  cases r with
  | error d => exact answers_throw _
  | ok a => exact answers_pure (h a rfl)

theorem answers_ofExcept {r : Except DerivativeError α} (h : ∀ a, r = .ok a → P a) :
    Answers (fun _ => Derivation.ofExcept r) P := by
  cases r with
  | error e => exact .inl ⟨e, Term.settles_some _⟩
  | ok a => exact .inr ⟨a, h a rfl, Term.settles_some _⟩

end

namespace Derivation

section

variable {go : Nat → Descent} {stack : List FunctionId} {target : Target} {nodes : Array Node}
  {pos : Nat}

def Ends (go : Nat → Descent) (stack : List FunctionId) (target : Target) (nodes : Array Node)
    (pos : Nat) : Prop :=
  HasOutcome fun d => go d stack target nodes pos

theorem answers_operandAt {t : Term} (counted : t.Counted) (h : Stands nodes pos t.encode.nodes) :
    Answers (fun _ => operandAt .total nodes pos) (· = (t.encode, pos + t.size)) := by
  refine (answers_orDefect fun stop hstop => Term.operandStop_of_stands counted h hstop).bind ?_
  rintro stop rfl
  refine answers_pure ?_
  rw [← Term.size_encode, Expression.slice_of_stands h]

theorem answers_span {body : Array Node} (inside : ClosesInside body)
    (h : Stands nodes pos (Expression.spanned body)) :
    Answers (fun _ => orDefect (Span.at? nodes pos)) (· = ⟨pos, body.size + 2⟩) :=
  answers_orDefect fun _ hs => (Span.eq_of_at? inside h hs).2

theorem answers_spanBody {body : Term} {s : Span} (hs : s = ⟨pos, body.encode.nodes.size + 2⟩)
    (h : Stands nodes pos (Expression.spanned body.encode.nodes)) :
    Answers (fun _ => Slicing.total nodes s.bodyStart s.bodyStop) (· = body.encode) := by
  subst hs
  exact answers_pure (Expression.slice_body h)

theorem Ends.bind_derivative {β : Type} {f : Nat → Expression → Attempt β}
    (h : Ends go stack target nodes pos) (hf : ∀ e, HasOutcome fun d => f d e) :
    HasOutcome fun d => (go d stack target nodes pos >>= fun r => pure r.1) >>= f d :=
  Answers.bind (P := fun _ => True) (h.bind fun _ _ => answers_pure trivial) fun e _ => hf e

theorem hasOutcome_whole {e : Expression} (h : Ends go stack target e.nodes 0) :
    HasOutcome fun d => whole (go d) stack target e :=
  h.bind fun _ _ => answers_pure trivial

variable [SpecialFunctions]

theorem hasOutcome_unary {t : Term} (op : UnaryOp) (counted : t.Counted)
    (h : Stands nodes (pos + 1) t.encode.nodes) (hgo : Ends go stack target nodes (pos + 1)) :
    HasOutcome fun d => unary .total (go d) stack target nodes pos op := by
  refine (answers_operandAt counted h).bind ?_
  rintro _ rfl
  refine hgo.bind ?_
  rintro ⟨du, _⟩ -
  dsimp only
  split
  · exact answers_pure trivial
  · split
    · exact answers_pure trivial
    · exact answers_throw _

theorem hasOutcome_binary {ctx : Derivation} {a b : Term} (op : BinaryOp) (counted : a.Counted)
    (counted' : b.Counted) (ha : Stands nodes (pos + 1) a.encode.nodes)
    (hb : Stands nodes (pos + 1 + a.size) b.encode.nodes)
    (hgo : Ends go stack target nodes (pos + 1)) (hgo' : Ends go stack target nodes (pos + 1 + a.size))
    (hpower : op = .power → Ends go stack target (asExponential a.encode b.encode).nodes 0) :
    HasOutcome fun d => binary .total ctx (go d) stack target nodes pos op := by
  refine (answers_operandAt counted ha).bind ?_
  rintro _ rfl
  refine (answers_operandAt counted' hb).bind ?_
  rintro _ rfl
  dsimp only
  split
  · split
    · exact (hasOutcome_whole (hpower rfl)).bind fun _ _ => answers_pure trivial
    · exact hgo.bind_derivative fun _ => answers_pure trivial
  · split
    · exact answers_throw _
    · exact hgo.bind_derivative fun _ => answers_pure trivial
  · split
    · exact answers_throw _
    · exact hgo.bind_derivative fun _ => answers_pure trivial
  · refine hgo.bind_derivative fun da => hgo'.bind ?_
    rintro ⟨db, _⟩ -
    dsimp only
    split
    · exact answers_pure trivial
    · exact answers_throw _

omit [SpecialFunctions] in
theorem hasOutcome_branch {c a b : Term} (counted : c.Counted)
    (hc : Stands nodes (pos + 1) c.encode.nodes)
    (ha : Stands nodes (pos + 1 + c.size) (Expression.spanned a.encode.nodes))
    (hb : Stands nodes (pos + 1 + c.size + (a.size + 2)) (Expression.spanned b.encode.nodes))
    (hgo : Ends go stack target nodes (pos + 1 + c.size + 1))
    (hgo' : Ends go stack target nodes (pos + 1 + c.size + (a.size + 2) + 1)) :
    HasOutcome fun d => branch .total (go d) stack target nodes pos := by
  refine (answers_operandAt counted hc).bind ?_
  rintro _ rfl
  refine (answers_span (Term.closesInside_encode a) ha).bind ?_
  rintro _ rfl
  rw [← Term.size_encode a] at hb hgo'
  refine (answers_span (Term.closesInside_encode b) hb).bind ?_
  rintro _ rfl
  refine Answers.bind (Q := fun _ => True) hgo ?_
  rintro ⟨dYes, _⟩ -
  refine hgo'.bind ?_
  rintro ⟨dNo, _⟩ -
  dsimp only
  split
  · exact answers_pure trivial
  · exact answers_pure trivial

/-! Loops -/

theorem hasOutcome_sumTerms {diff : Nat → Expression → Attempt Expression} {terms : List Expression}
    (h : ∀ e ∈ terms, HasOutcome fun d => diff d e) :
    ∀ acc, HasOutcome fun d => sumTerms (diff d) terms acc := by
  induction terms with
  | nil => exact fun acc => answers_pure trivial
  | cons e terms ih =>
    intro acc
    obtain ⟨he, hterms⟩ := List.forall_mem_cons.1 h
    exact he.bind fun _ _ => ih hterms _

theorem hasOutcome_sumProducts {diff : Nat → Expression → Attempt Expression}
    {factors : List Expression} (h : ∀ e ∈ factors, HasOutcome fun d => diff d e) :
    ∀ before acc, HasOutcome fun d => sumProducts (diff d) before factors acc := by
  induction factors with
  | nil => exact fun before acc => answers_pure trivial
  | cons e factors ih =>
    intro before acc
    obtain ⟨he, hfactors⟩ := List.forall_mem_cons.1 h
    exact he.bind fun _ _ => ih hfactors _ _

theorem hasOutcome_loop {ctx : Derivation} (valid : ctx.env.BodiesValid) {kind : Fold} {v : Address}
    {lower upper body : Term} (hv : nodes[pos + 1]? = some (.ref v)) (countedLower : lower.Counted)
    (countedUpper : upper.Counted) (countedBody : body.Counted)
    (hl : Stands nodes (pos + 2) lower.encode.nodes)
    (hu : Stands nodes (pos + 2 + lower.size) upper.encode.nodes)
    (hb : Stands nodes (pos + 2 + lower.size + upper.size) (Expression.spanned body.encode.nodes))
    (hnull : Ends go stack target Expression.null.nodes 0)
    (hgo : ∀ t, Term.Expands ctx.env v body t → ∀ x,
      Ends go stack target (Term.replace v (.const x) t).encode.nodes 0) :
    HasOutcome fun d => loop .total ctx (go d) stack target nodes pos kind := by
  simp only [loop, hv]
  refine (answers_operandAt countedLower hl).bind ?_
  rintro _ rfl
  refine (answers_operandAt countedUpper hu).bind ?_
  rintro _ rfl
  refine (answers_span (Term.closesInside_encode body) hb).bind ?_
  rintro _ rfl
  refine (answers_spanBody rfl hb).bind ?_
  rintro _ rfl
  refine (answers_ofExcept fun _ _ => trivial).bind fun range _ => ?_
  refine (answers_ofExcept fun e he => Term.exists_of_expandReaders valid _ countedBody he).bind ?_
  rintro _ ⟨t, hexpands, rfl⟩
  have hterms : ∀ e ∈ range.toList.map fun i => t.encode.replaceVar v (.const (ofPosition i)),
      HasOutcome fun d => whole (go d) stack target e := by
    intro e he
    obtain ⟨i, -, rfl⟩ := List.mem_map.1 he
    refine hasOutcome_whole ?_
    obtain ⟨-, h⟩ | ⟨-, h⟩ :=
      Term.replaceVar_encode (hexpands.counted valid countedBody) v (.const (ofPosition i))
    · rw [Term.encode] at h
      rw [h]
      exact hnull
    · rw [Term.encode] at h
      rw [h]
      exact hgo t hexpands _
  cases kind with
  | sum => exact (hasOutcome_sumTerms hterms _).bind fun _ _ => answers_pure trivial
  | product => exact (hasOutcome_sumProducts hterms _ _).bind fun _ _ => answers_pure trivial

/-! Calls -/

omit [SpecialFunctions] in
theorem hasOutcome_arguments (ts : List Term) (counted : ∀ t ∈ ts, t.Counted)
    (hgo : ∀ t ∈ ts, ∀ pos, Stands nodes pos t.encode.nodes → Ends go stack target nodes pos) :
    ∀ pos, Stands nodes pos (Expression.concat (Term.encodeAll ts)) →
      HasOutcome fun d => arguments .total (go d) stack target nodes ts.length pos := by
  induction ts with
  | nil => exact fun pos _ => answers_pure trivial
  | cons t ts ih =>
    intro pos h
    obtain ⟨ht, hts⟩ := List.forall_mem_cons.1 counted
    obtain ⟨hgot, hgots⟩ := List.forall_mem_cons.1 hgo
    rw [Term.encodeAll, Expression.concat_cons, stands_append, Term.size_encode] at h
    refine (answers_operandAt ht h.1).bind ?_
    rintro _ rfl
    refine Answers.bind (hgot pos h.1) fun _ _ => ?_
    exact (ih hts hgots _ h.2).bind fun _ _ => answers_pure trivial

theorem hasOutcome_addPartials {body : Expression} {args derivatives : List Expression}
    (hgo : ∀ target, Ends go stack target body.nodes 0) :
    ∀ index acc, HasOutcome fun d => addPartials (go d) stack body args index derivatives acc := by
  induction derivatives with
  | nil => exact fun index acc => answers_pure trivial
  | cons e derivatives ih =>
    intro index acc
    simp only [addPartials]
    split
    · exact ih _ _
    · exact (hasOutcome_whole (hgo _)).bind fun _ _ => ih _ _

theorem hasOutcome_chainRule {body : Expression} {args derivatives : List Expression}
    (hgo : ∀ target, Ends go stack target body.nodes 0) :
    HasOutcome fun d => chainRule (go d) stack target body args derivatives := by
  have hdirect : ∀ e, HasOutcome fun d => (pure e : Attempt Expression) >>= fun direct =>
      addPartials (go d) stack body args 0 derivatives direct := fun e =>
    Answers.bind (P := fun _ => True) (answers_pure trivial) fun _ _ => hasOutcome_addPartials hgo _ _
  unfold chainRule
  cases target with
  | var a => exact (hasOutcome_whole (hgo _)).bind fun _ _ => hdirect _
  | arg i => exact hdirect _

theorem hasOutcome_call {ctx : Derivation} {f : FunctionId} (args : List Term)
    (hlen : args.length < UInt32.size) (counted : ∀ t ∈ args, t.Counted)
    (h : Stands nodes (pos + 1) (Expression.concat (Term.encodeAll args)))
    (hgo : ∀ t ∈ args, ∀ pos, Stands nodes pos t.encode.nodes → Ends go stack target nodes pos)
    (hbody : ∀ function, ctx.env.function? f = some function → f ∉ stack → ∀ target,
      Ends go (f :: stack) target function.body.nodes 0) :
    HasOutcome fun d => call .total ctx (go d) stack target nodes pos f (UInt32.ofNat args.length) := by
  unfold call
  cases found : ctx.env.function? f with
  | none => exact answers_throw _
  | some function =>
    dsimp only
    split
    · exact answers_throw _
    · split
      · exact answers_throw _
      · rename_i hstack
        have hcount : (UInt32.ofNat args.length).toNat = args.length :=
          UInt32.toNat_ofNat_of_lt hlen
        rw [hcount]
        refine (hasOutcome_arguments args counted hgo _ h).bind fun _ _ => ?_
        refine (hasOutcome_chainRule (hbody function found ?_)).bind fun _ _ => answers_pure trivial
        simpa using hstack

end

end Derivation

end PrefixCalculus
