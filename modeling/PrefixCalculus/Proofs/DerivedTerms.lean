import PrefixCalculus.Proofs.DerivedForm
set_option autoImplicit false

/-!
What a differentiation comes to where flat forms stand. Each rule is looked at once, for any property
of the derivatives of the operands, then with a class for the operands and their derivatives; a loop
differentiates its body with numbers in it, a call the body of its function, and puts the arguments
into what comes out. Main statement: the derivative of a term of a class is the flat form of a term of
the class, for every class that has the terms which are differentiated and put together on the way;
where a body's derivative cannot be read it may be null.
-/

namespace PrefixCalculus

/-- If the attempt comes to a result, the result has the property. -/
def Ensures {α : Type} (x : Attempt α) (P : α → Prop) : Prop :=
  ∀ a, x.run = some (.ok a) → P a

section

variable {α β : Type} {P : α → Prop} {Q : β → Prop}

theorem exists_of_isOk {x : Attempt α} (h : x.run.any Except.isOk = true) :
    ∃ a, x.run = some (.ok a) := by
  obtain ⟨r, hr, hok⟩ := Option.any_eq_true _ _ |>.1 h
  cases r with
  | error e => cases hok
  | ok a => exact ⟨a, hr⟩

theorem ensures_pure {a : α} (h : P a) : Ensures (pure a : Attempt α) P := by
  intro b hb
  cases hb
  exact h

theorem ensures_throw (e : DerivativeError) : Ensures (throw e : Attempt α) P := by
  intro a h
  cases h

theorem ensures_any (x : Attempt α) : Ensures x fun _ => True :=
  fun _ _ => trivial

theorem Ensures.imp {x : Attempt α} {R : α → Prop} (hx : Ensures x P) (h : ∀ a, P a → R a) :
    Ensures x R :=
  fun a ha => h a (hx a ha)

theorem Ensures.bind {x : Attempt α} {f : α → Attempt β} (hx : Ensures x P)
    (hf : ∀ a, P a → Ensures (f a) Q) : Ensures (x >>= f) Q := by
  intro b hb
  rw [ExceptT.run_bind] at hb
  obtain ⟨r, hr, hb⟩ := Option.bind_eq_some_iff.1 hb
  cases r with
  | error e => cases hb
  | ok a => exact hf a (hx a hr) b hb

theorem ensures_orDefect {r : Except Defect α} (h : ∀ a, r = .ok a → P a) :
    Ensures (Derivation.orDefect r) P := by
  cases r with
  | error d => exact ensures_throw _
  | ok a => exact ensures_pure (h a rfl)

theorem ensures_ofExcept {r : Except DerivativeError α} (h : ∀ a, r = .ok a → P a) :
    Ensures (Derivation.ofExcept r) P := by
  intro a ha
  exact h a (Option.some.inj ha)

end

namespace IsForm

variable {lost : Prop} {I J : Term → Prop} {d : Expression} {args : List Term}

theorem instantiate (h : IsForm lost J d) (counted : ∀ p, J p → p.Counted)
    (readable : ∀ p, J p → d = p.encode → lost ∨ p.Fits)
    (closed : ∀ p, J p → p.Fits → I (p.instantiate args)) :
    IsForm lost I (d.instantiate (Term.encodeAll args)) := by
  obtain ⟨hlost, rfl⟩ | ⟨p, hp, rfl⟩ := h
  · exact .inl ⟨hlost, rfl⟩
  · by_cases fits : p.Fits
    · rw [Term.encodeAll_eq_map, Term.instantiate_encode fits]
      exact .inr ⟨p.instantiate args, closed p hp fits, rfl⟩
    · refine .inl ⟨(readable p hp rfl).resolve_right fits, ?_⟩
      rw [Expression.instantiate, Expression.withReplacements_eq _ (Term.isNull_encode p)]
      cases hread : Term.decode p.encode with
      | error => rfl
      | ok p' => exact absurd (Term.eq_of_decode (counted p hp) hread).2 fits

end IsForm

namespace Derivation

section

variable {go : Descent} {stack : List FunctionId} {target : Target} {nodes : Array Node} {pos : Nat}
  {lost : Prop} {I : Term → Prop}

def Derives (lost : Prop) (I : Term → Prop) (go : Descent) (stack : List FunctionId) (target : Target)
    (nodes : Array Node) (pos : Nat) : Prop :=
  Ensures (go stack target nodes pos) fun r => IsForm lost I r.1

theorem ensures_operandAt {t : Term} (counted : t.Counted) (h : Stands nodes pos t.encode.nodes) :
    Ensures (operandAt .total nodes pos) (· = (t.encode, pos + t.size)) := by
  refine (ensures_orDefect fun stop hstop => Term.operandStop_of_stands counted h hstop).bind ?_
  rintro stop rfl
  refine ensures_pure ?_
  rw [← Term.size_encode, Expression.slice_of_stands h]

theorem ensures_span {body : Array Node} (inside : ClosesInside body)
    (h : Stands nodes pos (Expression.spanned body)) :
    Ensures (orDefect (Span.at? nodes pos)) (· = ⟨pos, body.size + 2⟩) :=
  ensures_orDefect fun _ hs => (Span.eq_of_at? inside h hs).2

theorem ensures_spanBody {body : Term} {s : Span} (hs : s = ⟨pos, body.encode.nodes.size + 2⟩)
    (h : Stands nodes pos (Expression.spanned body.encode.nodes)) :
    Ensures (Slicing.total nodes s.bodyStart s.bodyStop) (· = body.encode) := by
  subst hs
  exact ensures_pure (Expression.slice_body h)

theorem ensures_whole {e : Expression} (h : Derives lost I go stack target e.nodes 0) :
    Ensures (whole go stack target e) (IsForm lost I) :=
  h.bind fun _ hd => ensures_pure hd

/-! Rules, for any property of the derivatives of the operands -/

def Lands (x : Attempt (Expression × Nat)) (P : Expression → Prop) (stop : Nat) : Prop :=
  Ensures x fun r => P r.1 ∧ r.2 = stop

section

variable {D P : Expression → Prop}

theorem Lands.derivative {x : Attempt (Expression × Nat)} {stop : Nat} (h : Lands x P stop) :
    Ensures x fun r => P r.1 :=
  Ensures.imp h fun _ => And.left

theorem Lands.stop {x : Attempt (Expression × Nat)} {stop : Nat} (h : Lands x P stop) :
    Ensures x fun r => r.2 = stop :=
  Ensures.imp h fun _ => And.right

theorem lands_pure {e : Expression} (h : P e) (stop : Nat) : Lands (pure (e, stop)) P stop :=
  ensures_pure ⟨h, rfl⟩

theorem lands_of_ensures {x : Attempt Expression} (h : Ensures x P) (stop : Nat) :
    Lands (x >>= fun d => pure (d, stop)) P stop :=
  h.bind fun _ hd => lands_pure hd stop

variable [SpecialFunctions]

theorem lands_unary {t : Term} {op : UnaryOp} (counted : t.Counted)
    (h : Stands nodes (pos + 1) t.encode.nodes)
    (hgo : Ensures (go stack target nodes (pos + 1)) fun r => D r.1) (hzero : P Folding.zero)
    (hrule : ∀ du d, D du → Folding.isZero du = false → op.derivative? t.encode du = some d → P d) :
    Lands (unary .total go stack target nodes pos op) P (pos + 1 + t.size) := by
  refine (ensures_operandAt counted h).bind ?_
  rintro _ rfl
  refine hgo.bind ?_
  rintro ⟨du, _⟩ hdu
  dsimp only
  split
  · exact lands_pure hzero _
  · rename_i hne
    split
    · rename_i d hd
      exact lands_pure (hrule du d hdu (Bool.eq_false_iff.2 hne) hd) _
    · exact ensures_throw _

/-- A power, a remainder and a logarithm ask whether the second operand depends on the target, the
other operators take the derivatives of both. -/
theorem lands_binary {ctx : Derivation} {a b : Term} {op : BinaryOp} (ca : a.Counted)
    (cb : b.Counted) (hsa : Stands nodes (pos + 1) a.encode.nodes)
    (hsb : Stands nodes (pos + 1 + a.size) b.encode.nodes)
    (hgo : Ensures (go stack target nodes (pos + 1)) fun r => D r.1)
    (hgo' : Ensures (go stack target nodes (pos + 1 + a.size)) fun r => D r.1)
    (hpower : b.encode.dependsOn target ctx.env = true →
      Ensures (whole go stack target (asExponential a.encode b.encode)) P)
    (hleft : ∀ da, D da → P (Folding.powerRule a.encode b.encode da) ∧ P da ∧
      P (Folding.logBaseRule a.encode b.encode da))
    (hrule : ∀ da db d, D da → D db → op.derivative? a.encode b.encode da db = some d → P d) :
    Lands (binary .total ctx go stack target nodes pos op) P (pos + 1 + a.size + b.size) := by
  refine (ensures_operandAt ca hsa).bind ?_
  rintro _ rfl
  refine (ensures_operandAt cb hsb).bind ?_
  rintro _ rfl
  have hda : Ensures (go stack target nodes (pos + 1) >>= fun r => pure r.1) D :=
    hgo.bind fun _ hda => ensures_pure hda
  dsimp only
  split
  · split
    · rename_i hdepends
      exact lands_of_ensures (hpower hdepends) _
    · exact hda.bind fun da hda => lands_pure (hleft da hda).1 _
  · split
    · exact ensures_throw _
    · exact hda.bind fun da hda => lands_pure (hleft da hda).2.1 _
  · split
    · exact ensures_throw _
    · exact hda.bind fun da hda => lands_pure (hleft da hda).2.2 _
  · refine hda.bind fun da hda => hgo'.bind ?_
    rintro ⟨db, _⟩ hdb
    dsimp only
    split
    · rename_i d hd
      exact lands_pure (hrule da db d hda hdb hd) _
    · exact ensures_throw _

omit [SpecialFunctions] in
theorem lands_branch {c a b : Term} (counted : c.Counted)
    (hsc : Stands nodes (pos + 1) c.encode.nodes)
    (hsa : Stands nodes (pos + 1 + c.size) (Expression.spanned a.encode.nodes))
    (hsb : Stands nodes (pos + 1 + c.size + (a.size + 2)) (Expression.spanned b.encode.nodes))
    (hgo : Ensures (go stack target nodes (pos + 1 + c.size + 1)) fun r => D r.1)
    (hgo' : Ensures (go stack target nodes (pos + 1 + c.size + (a.size + 2) + 1)) fun r => D r.1)
    (hzero : P Folding.zero)
    (hrule : ∀ dYes dNo, D dYes → D dNo → (Folding.isZero dYes && Folding.isZero dNo) = false →
      P (.branch c.encode dYes dNo)) :
    Lands (branch .total go stack target nodes pos) P
      (pos + 1 + c.size + (a.size + 2) + (b.size + 2)) := by
  refine (ensures_operandAt counted hsc).bind ?_
  rintro _ rfl
  refine (ensures_span (Term.closesInside_encode a) hsa).bind ?_
  rintro _ rfl
  rw [← Term.size_encode a] at hsb hgo' ⊢
  refine (ensures_span (Term.closesInside_encode b) hsb).bind ?_
  rintro _ rfl
  refine Ensures.bind hgo ?_
  rintro ⟨dYes, _⟩ hdYes
  refine Ensures.bind hgo' ?_
  rintro ⟨dNo, _⟩ hdNo
  rw [← Term.size_encode b]
  dsimp only
  split
  · exact lands_pure hzero _
  · rename_i hne
    exact lands_pure (hrule dYes dNo hdYes hdNo (Bool.eq_false_iff.2 hne)) _

theorem lands_loop {ctx : Derivation} {kind : Fold} {v : Address} {lower upper body : Term}
    (hv : nodes[pos + 1]? = some (.ref v)) (cl : lower.Counted) (cu : upper.Counted)
    (hl : Stands nodes (pos + 2) lower.encode.nodes)
    (hu : Stands nodes (pos + 2 + lower.size) upper.encode.nodes)
    (hb : Stands nodes (pos + 2 + lower.size + upper.size) (Expression.spanned body.encode.nodes))
    (hterms : ∀ expanded (range : LoopRange),
      expandReaders ctx.env v (ctx.env.functionCount + 1) none body.encode = .ok expanded →
      ∀ terms, terms = (range.toList.map fun i => expanded.replaceVar v (.const (ofPosition i))) →
        Ensures (sumTerms (whole go stack target) terms Folding.zero) P ∧
          Ensures (sumProducts (whole go stack target) [] terms Folding.zero) P) :
    Lands (loop .total ctx go stack target nodes pos kind) P
      (pos + 2 + lower.size + upper.size + (body.size + 2)) := by
  simp only [loop, hv]
  refine (ensures_operandAt cl hl).bind ?_
  rintro _ rfl
  refine (ensures_operandAt cu hu).bind ?_
  rintro _ rfl
  refine (ensures_span (Term.closesInside_encode body) hb).bind ?_
  rintro _ rfl
  refine (ensures_spanBody rfl hb).bind ?_
  rintro _ rfl
  refine (ensures_any _).bind fun range _ => ?_
  refine (ensures_ofExcept fun _ hexpanded => hexpanded).bind fun expanded hexpanded => ?_
  obtain ⟨hsum, hproduct⟩ := hterms expanded range hexpanded _ rfl
  rw [← Term.size_encode body]
  cases kind with
  | sum => exact lands_of_ensures hsum _
  | product => exact lands_of_ensures hproduct _

omit [SpecialFunctions] in
theorem ensures_arguments (ts : List Term) (counted : ∀ t ∈ ts, t.Counted)
    (hgo : ∀ t ∈ ts, ∀ pos, Stands nodes pos t.encode.nodes →
      Ensures (go stack target nodes pos) fun r => D r.1) :
    ∀ pos, Stands nodes pos (Expression.concat (Term.encodeAll ts)) →
      Ensures (arguments .total go stack target nodes ts.length pos) fun r =>
        r.1.map Prod.fst = Term.encodeAll ts ∧ (∀ d ∈ r.1.map Prod.snd, D d) ∧
          r.2 = pos + Term.sizeAll ts := by
  induction ts with
  | nil => exact fun pos _ => ensures_pure ⟨rfl, by simp, rfl⟩
  | cons t ts ih =>
    intro pos h
    obtain ⟨ht, hts⟩ := List.forall_mem_cons.1 counted
    obtain ⟨hgot, hgots⟩ := List.forall_mem_cons.1 hgo
    rw [Term.encodeAll, Expression.concat_cons, stands_append, Term.size_encode] at h
    refine (ensures_operandAt ht h.1).bind ?_
    rintro _ rfl
    refine Ensures.bind (hgot pos h.1) ?_
    rintro ⟨d, _⟩ hd
    refine (ih hts hgots _ h.2).bind ?_
    rintro ⟨rest, stop⟩ ⟨hrest, hds, rfl⟩
    exact ensures_pure ⟨by rw [List.map_cons, hrest, Term.encodeAll],
      List.forall_mem_cons.2 ⟨hd, hds⟩, by rw [Term.sizeAll, ← Nat.add_assoc]⟩

theorem lands_call {ctx : Derivation} {f : FunctionId} (args : List Term)
    (hlen : args.length < UInt32.size) (counted : ∀ t ∈ args, t.Counted)
    (h : Stands nodes (pos + 1) (Expression.concat (Term.encodeAll args)))
    (hgo : ∀ t ∈ args, ∀ pos, Stands nodes pos t.encode.nodes →
      Ensures (go stack target nodes pos) fun r => D r.1)
    (hchain : ∀ function, ctx.env.function? f = some function →
      function.argc.toNat = args.length → f ∉ stack → ∀ ds, (∀ d ∈ ds, D d) →
        Ensures (chainRule go (f :: stack) target function.body (Term.encodeAll args) ds) P) :
    Lands (call .total ctx go stack target nodes pos f (UInt32.ofNat args.length)) P
      (pos + 1 + Term.sizeAll args) := by
  have hcount : (UInt32.ofNat args.length).toNat = args.length := UInt32.toNat_ofNat_of_lt hlen
  unfold call
  cases found : ctx.env.function? f with
  | none => exact ensures_throw _
  | some function =>
    dsimp only
    split
    · exact ensures_throw _
    · rename_i hargc
      split
      · exact ensures_throw _
      · rename_i hstack
        rw [hcount]
        refine (ensures_arguments args counted hgo _ h).bind ?_
        rintro ⟨pairs, _⟩ ⟨hpairs, hds, rfl⟩
        dsimp only at hpairs ⊢
        rw [hpairs]
        have hargc : function.argc.toNat = args.length := by
          rw [← hcount, show function.argc = UInt32.ofNat args.length by simpa using hargc]
        exact lands_of_ensures (hchain function found hargc (by simpa using hstack) _ hds) _

end

section

variable [SpecialFunctions]

variable (build : Term.Buildable I)
include build

theorem ensures_unary {t : Term} (op : UnaryOp) (counted : t.Counted) (ht : I t)
    (h : Stands nodes (pos + 1) t.encode.nodes)
    (hgo : Derives lost I go stack target nodes (pos + 1)) :
    Ensures (unary .total go stack target nodes pos op) fun r => IsForm lost I r.1 :=
  (lands_unary counted h hgo (IsForm.literal build _) fun _ _ hdu _ hd =>
    IsForm.unary_derivative? build (.inr ⟨t, ht, rfl⟩) hdu hd).derivative

theorem ensures_binary {ctx : Derivation} {a b : Term} (op : BinaryOp) (ca : a.Counted)
    (cb : b.Counted) (ha : I a) (hb : I b) (hsa : Stands nodes (pos + 1) a.encode.nodes)
    (hsb : Stands nodes (pos + 1 + a.size) b.encode.nodes)
    (hgo : Derives lost I go stack target nodes (pos + 1))
    (hgo' : Derives lost I go stack target nodes (pos + 1 + a.size))
    (hpower : Derives lost I go stack target (asExponential a.encode b.encode).nodes 0) :
    Ensures (binary .total ctx go stack target nodes pos op) fun r => IsForm lost I r.1 := by
  have hfa : IsForm lost I a.encode := .inr ⟨a, ha, rfl⟩
  have hfb : IsForm lost I b.encode := .inr ⟨b, hb, rfl⟩
  refine (lands_binary ca cb hsa hsb hgo hgo' (fun _ => ensures_whole hpower) ?_ ?_).derivative
  · exact fun da hda => ⟨IsForm.powerRule build hfa hfb hda, hda,
      IsForm.logBaseRule build hfa hfb hda⟩
  · exact fun da db d hda hdb hd => IsForm.binary_derivative? build hfa hfb hda hdb hd

omit [SpecialFunctions] in
theorem ensures_branch {c a b : Term} (counted : c.Counted) (hc : I c)
    (hsc : Stands nodes (pos + 1) c.encode.nodes)
    (hsa : Stands nodes (pos + 1 + c.size) (Expression.spanned a.encode.nodes))
    (hsb : Stands nodes (pos + 1 + c.size + (a.size + 2)) (Expression.spanned b.encode.nodes))
    (hgo : Derives lost I go stack target nodes (pos + 1 + c.size + 1))
    (hgo' : Derives lost I go stack target nodes (pos + 1 + c.size + (a.size + 2) + 1)) :
    Ensures (branch .total go stack target nodes pos) fun r => IsForm lost I r.1 :=
  (lands_branch counted hsc hsa hsb hgo hgo' (IsForm.literal build _)
    fun _ _ hdYes hdNo _ => IsForm.branch build (.inr ⟨c, hc, rfl⟩) hdYes hdNo).derivative

/-! Loops -/

theorem ensures_sumTerms {diff : Expression → Attempt Expression} {terms : List Expression}
    (h : ∀ e ∈ terms, Ensures (diff e) (IsForm lost I)) :
    ∀ acc, IsForm lost I acc → Ensures (sumTerms diff terms acc) (IsForm lost I) := by
  induction terms with
  | nil => exact fun acc hacc => ensures_pure hacc
  | cons e terms ih =>
    intro acc hacc
    obtain ⟨he, hterms⟩ := List.forall_mem_cons.1 h
    exact he.bind fun d hd => ih hterms _ (IsForm.add build hacc hd)

theorem ensures_sumProducts {diff : Expression → Attempt Expression} {factors : List Expression}
    (h : ∀ e ∈ factors, Ensures (diff e) (IsForm lost I)) (hforms : ∀ e ∈ factors, IsForm lost I e) :
    ∀ before acc, (∀ e ∈ before, IsForm lost I e) → IsForm lost I acc →
      Ensures (sumProducts diff before factors acc) (IsForm lost I) := by
  induction factors with
  | nil => exact fun before acc _ hacc => ensures_pure hacc
  | cons e factors ih =>
    intro before acc hbefore hacc
    obtain ⟨he, hfactors⟩ := List.forall_mem_cons.1 h
    obtain ⟨hform, hforms⟩ := List.forall_mem_cons.1 hforms
    refine he.bind fun d hd => ih hfactors hforms _ _ ?_ ?_
    · exact List.forall_mem_append.2 ⟨hbefore, List.forall_mem_singleton.2 hform⟩
    · split
      · exact hacc
      · exact IsForm.add build hacc (IsForm.mul build hd
          (IsForm.productOf build (List.forall_mem_append.2 ⟨hbefore, hforms⟩)))

theorem ensures_joined_nulls {diff : Expression → Attempt Expression} {terms : List Expression}
    (hdiff : Ensures (diff .null) fun _ => False) (h : ∀ e ∈ terms, e = .null) :
    Ensures (sumTerms diff terms Folding.zero) (IsForm lost I) ∧
      Ensures (sumProducts diff [] terms Folding.zero) (IsForm lost I) := by
  cases terms with
  | nil => exact ⟨ensures_pure (IsForm.literal build _), ensures_pure (IsForm.literal build _)⟩
  | cons e terms =>
    obtain rfl := h e (by simp)
    exact ⟨hdiff.bind fun _ hd => hd.elim, hdiff.bind fun _ hd => hd.elim⟩

omit build in
/-- The terms of a loop are the body with the readers expanded and a number for the variable, or null
where the expanded body cannot be read. -/
theorem ensures_loop_terms {ctx : Derivation} (valid : ctx.env.BodiesValid) {kind : Fold} {v : Address}
    {lower upper body : Term} {P : Expression → Prop} (hv : nodes[pos + 1]? = some (.ref v))
    (cl : lower.Counted) (cu : upper.Counted) (cb : body.Counted)
    (hl : Stands nodes (pos + 2) lower.encode.nodes)
    (hu : Stands nodes (pos + 2 + lower.size) upper.encode.nodes)
    (hb : Stands nodes (pos + 2 + lower.size + upper.size) (Expression.spanned body.encode.nodes))
    (hterms : ∀ t terms, Term.Expands ctx.env v body t →
      (∀ e ∈ terms, ¬t.Fits ∧ e = .null ∨
        t.Fits ∧ ∃ x, e = (Term.replace v (.const x) t).encode) →
      Ensures (sumTerms (whole go stack target) terms Folding.zero) P ∧
        Ensures (sumProducts (whole go stack target) [] terms Folding.zero) P) :
    Ensures (loop .total ctx go stack target nodes pos kind) fun r => P r.1 := by
  refine (lands_loop hv cl cu hl hu hb ?_).derivative
  rintro _ range hexpanded terms rfl
  obtain ⟨t, hexpands, rfl⟩ := Term.exists_of_expandReaders valid _ cb hexpanded
  refine hterms t _ hexpands fun e he => ?_
  obtain ⟨i, -, rfl⟩ := List.mem_map.1 he
  have h := Term.replaceVar_encode (hexpands.counted valid cb) v (.const (ofPosition i))
  exact h.imp_right (And.imp_right fun h => ⟨_, h⟩)

theorem ensures_loop {ctx : Derivation} (valid : ctx.env.BodiesValid) {kind : Fold} {v : Address}
    {lower upper body : Term} (hv : nodes[pos + 1]? = some (.ref v)) (countedLower : lower.Counted)
    (countedUpper : upper.Counted) (countedBody : body.Counted)
    (hl : Stands nodes (pos + 2) lower.encode.nodes)
    (hu : Stands nodes (pos + 2 + lower.size) upper.encode.nodes)
    (hb : Stands nodes (pos + 2 + lower.size + upper.size) (Expression.spanned body.encode.nodes))
    (hnull : Ensures (whole go stack target .null) fun _ => False)
    (hgo : ∀ t, Term.Expands ctx.env v body t → t.Fits → ∀ x, I (.replace v (.const x) t) ∧
      Derives lost I go stack target (Term.replace v (.const x) t).encode.nodes 0) :
    Ensures (loop .total ctx go stack target nodes pos kind) fun r => IsForm lost I r.1 := by
  refine ensures_loop_terms valid hv countedLower countedUpper countedBody hl hu hb ?_
  intro t terms hexpands hreplace
  by_cases fits : t.Fits
  · have hterms : ∀ e ∈ terms,
        IsForm lost I e ∧ Ensures (whole go stack target e) (IsForm lost I) := by
      intro e he
      obtain ⟨hn, -⟩ | ⟨-, x, rfl⟩ := hreplace e he
      · exact absurd fits hn
      · obtain ⟨hterm, hd⟩ := hgo t hexpands fits x
        exact ⟨.inr ⟨_, hterm, rfl⟩, ensures_whole hd⟩
    have hzero : IsForm lost I Folding.zero := IsForm.literal build _
    exact ⟨ensures_sumTerms build (fun e he => (hterms e he).2) _ hzero,
      ensures_sumProducts build (fun e he => (hterms e he).2) (fun e he => (hterms e he).1) _ _
        (by simp) hzero⟩
  · exact ensures_joined_nulls build hnull fun e he =>
      (hreplace e he).elim And.right fun h => absurd h.1 fits

/-! Calls -/

section

variable {body : Expression} {args derivatives : List Expression} {T : Target → Prop}
  (parameters : ∀ i, T (.arg i))
  (hbody : ∀ target, T target → Ensures (whole go stack target body) fun d =>
    IsForm lost I (d.instantiate args))
include parameters hbody

theorem ensures_addPartials (hds : ∀ d ∈ derivatives, IsForm lost I d) :
    ∀ index acc, IsForm lost I acc →
      Ensures (addPartials go stack body args index derivatives acc) (IsForm lost I) := by
  induction derivatives with
  | nil => exact fun index acc hacc => ensures_pure hacc
  | cons d derivatives ih =>
    intro index acc hacc
    obtain ⟨hd, hds⟩ := List.forall_mem_cons.1 hds
    rw [addPartials]
    split
    · exact ih hds _ _ hacc
    · exact (hbody _ (parameters _)).bind fun slope hslope =>
        ih hds _ _ (IsForm.add build hacc (IsForm.mul build hd hslope))

theorem ensures_chainRule (htarget : T target) (hds : ∀ d ∈ derivatives, IsForm lost I d) :
    Ensures (chainRule go stack target body args derivatives) (IsForm lost I) := by
  have hzero : IsForm lost I Folding.zero := IsForm.literal build _
  have hpartials := ensures_addPartials build parameters hbody hds 0
  unfold chainRule
  cases target with
  | arg i => exact Ensures.bind (P := IsForm lost I) (ensures_pure hzero) hpartials
  | var a =>
    refine (hbody _ htarget).bind fun d hd =>
      Ensures.bind (P := IsForm lost I) (ensures_pure ?_) hpartials
    split
    · exact hzero
    · exact IsForm.add build hzero hd

end

theorem ensures_call {ctx : Derivation} {f : FunctionId} {T : Target → Prop}
    (parameters : ∀ i, T (.arg i)) (htarget : T target) (args : List Term)
    (hlen : args.length < UInt32.size) (counted : ∀ t ∈ args, t.Counted)
    (h : Stands nodes (pos + 1) (Expression.concat (Term.encodeAll args)))
    (hgo : ∀ t ∈ args, ∀ pos, Stands nodes pos t.encode.nodes →
      Derives lost I go stack target nodes pos)
    (hbody : ∀ function, ctx.env.function? f = some function → function.argc.toNat = args.length →
      f ∉ stack → ∀ target, T target → Ensures (whole go (f :: stack) target function.body) fun d =>
        IsForm lost I (d.instantiate (Term.encodeAll args))) :
    Ensures (call .total ctx go stack target nodes pos f (UInt32.ofNat args.length)) fun r =>
      IsForm lost I r.1 :=
  (lands_call args hlen counted h hgo fun function found hargc hstack _ hds =>
    ensures_chainRule build parameters (hbody function found hargc hstack) htarget hds).derivative

end

end

variable [SpecialFunctions]

/-- The class `I` has the terms that are differentiated on the way from a term in it and those that
are put together, the bodies of functions are in `J`, and only where something may get lost their
derivatives by the targets in `T` cannot be read. -/
structure Kept (ctx : Derivation) (T : Target → Prop) (lost : Prop) (J I : Term → Prop) : Prop
    extends Term.Buildable I where
  counted : ∀ {t}, I t → t.Counted
  argument : ∀ {f args}, I (.call f args) → ∀ t ∈ args, I t
  unrolled : ∀ {kind v lower upper body t}, I (.loop kind v lower upper body) →
    Term.Expands ctx.env v body t → t.Fits → ∀ x, I (.replace v (.const x) t)
  body : ∀ {f args function b}, I (.call f args) → ctx.env.function? f = some function →
    function.argc.toNat = args.length → function.body = b.encode → b.Fits → J b
  instantiated : ∀ {p args}, J p → p.Fits → (∀ t ∈ args, I t) → I (p.instantiate args)
  readable : ∀ {f args function}, I (.call f args) → ctx.env.function? f = some function →
    ∀ depth stack target p, T target → J p →
      (whole (ctx.descend depth) stack target function.body).run = some (.ok p.encode) → lost ∨ p.Fits

structure PassedDown (env : Environment) (I : Term → Prop) : Prop extends Term.Buildable I where
  counted : ∀ {t}, I t → t.Counted
  argument : ∀ {f args}, I (.call f args) → ∀ t ∈ args, I t
  unrolled : ∀ {kind v lower upper body t}, I (.loop kind v lower upper body) →
    Term.Expands env v body t → t.Fits → ∀ x, I (.replace v (.const x) t)

theorem Kept.passedDown {ctx : Derivation} {T : Target → Prop} {lost : Prop} {J I : Term → Prop}
    (kept : Kept ctx T lost J I) : PassedDown ctx.env I :=
  { kept with }

theorem kept_calls {ctx : Derivation} {T : Target → Prop} {lost : Prop} {Q : FunctionId × Nat → Prop}
    (valid : ctx.env.BodiesValid) (inherited : Term.Inherited ctx.env Q)
    (counted : ∀ c, Q c → c.2 < UInt32.size)
    (readable : ∀ f argc function, Q (f, argc) → ctx.env.function? f = some function →
      ∀ depth stack target p, T target →
        (whole (ctx.descend depth) stack target function.body).run = some (.ok (Term.encode p)) →
          lost ∨ p.Fits) :
    Kept ctx T lost (fun t => ∀ c ∈ t.calls, Q c) (fun t => ∀ c ∈ t.calls, Q c) where
  literal := by simp [Term.calls]
  unary := by simp [Term.calls]
  binary := by simp [Term.calls, or_imp, forall_and]
  branch := by simp [Term.calls, or_imp, forall_and]
  counted h c hc := counted c (h c hc)
  argument h t ht c hc := h c (List.mem_append_left _ (Term.mem_callsAll.2 ⟨t, ht, hc⟩))
  unrolled h hexpands _ x c hc := by
    rw [Term.calls_replace rfl] at hc
    exact hexpands.forall_calls valid inherited (fun c hc => h c (by simp [Term.calls, hc])) c hc
  body {f args function b} h found hargc flat fits :=
    inherited (f, args.length) function b (h _ (by simp [Term.calls])) found hargc flat fits
  instantiated hp _ hargs c hc := by
    obtain hc | ⟨t, ht, hc⟩ := Term.calls_instantiate _ hc
    · exact hp c hc
    · exact hargs t ht c hc
  readable {f args function} h found depth stack target p htarget _ hd :=
    readable f args.length function (h _ (by simp [Term.calls])) found depth stack target p htarget hd

/-! The descent -/

section

variable {ctx : Derivation} {T : Target → Prop} {lost : Prop} {J : Term → Prop}

theorem ensures_whole_null (depth : Nat) (stack : List FunctionId) (target : Target) :
    Ensures (whole (ctx.descend depth) stack target .null) fun _ => False := by
  cases depth with
  | zero => intro d h; cases h
  | succ depth => intro d h; cases h

omit [SpecialFunctions] in
theorem ensures_stop {nodes : Array Node} {pos : Nat} {I : Term → Prop} (build : Term.Buildable I) :
    Ensures (do return (Folding.zero, ← orDefect (operandStop nodes pos))) fun r =>
      IsForm lost I r.1 :=
  (ensures_any _).bind fun _ _ => ensures_pure (IsForm.literal build _)

theorem ensures_body (valid : ctx.env.BodiesValid) {f : FunctionId} {function : Function}
    (found : ctx.env.function? f = some function) {depth : Nat} {stack : List FunctionId}
    {target : Target} {P : Expression → Prop} (h : ∀ b : Term, b.Fits → function.body = b.encode →
      Ensures (whole (ctx.descend depth) stack target b.encode) P) :
    Ensures (whole (ctx.descend depth) stack target function.body) P := by
  obtain hnull | hcheck := valid f function found
  · rw [(Expression.isNull_iff _).1 hnull]
    exact fun d hd => (ensures_whole_null depth _ _ d hd).elim
  · obtain ⟨b, fits, hb⟩ := Term.check_eq_ok_iff.1 hcheck
    rw [hb]
    exact h b fits hb

/-- One level of the descent: where the parts of a term of the class have derivatives in the class, and
so have the bodies that its calls enter once the arguments are put in, the term has one. -/
theorem ensures_descend_succ (valid : ctx.env.BodiesValid) {I : Term → Prop}
    (closed : PassedDown ctx.env I) (parameters : ∀ i, T (.arg i)) {depth : Nat}
    {stack : List FunctionId} {target : Target} (htarget : T target)
    (hpart : ∀ {t nodes pos}, I t → Stands nodes pos t.encode.nodes →
      Derives lost I (ctx.descend depth) stack target nodes pos)
    (hbody : ∀ {f args function}, I (.call f args) → ctx.env.function? f = some function →
      function.argc.toNat = args.length → ∀ target, T target →
        Ensures (whole (ctx.descend depth) (f :: stack) target function.body) fun d =>
          IsForm lost I (d.instantiate (Term.encodeAll args)))
    {t : Term} (ht : I t) {nodes : Array Node} {pos : Nat} (h : Stands nodes pos t.encode.nodes) :
    Derives lost I (ctx.descend (depth + 1)) stack target nodes pos := by
  have build := closed.toBuildable
  have counted := closed.counted ht
  unfold Derives
  cases t with
  | literal x =>
    rw [descend, descendBy, stands_singleton.1 h]
    exact ensures_pure (IsForm.literal build _)
  | ref a =>
    rw [descend, descendBy, stands_singleton.1 h]
    dsimp only
    split <;> exact ensures_pure (IsForm.literal build _)
  | arg i =>
    rw [descend, descendBy, stands_singleton.1 h]
    dsimp only
    split <;> exact ensures_pure (IsForm.literal build _)
  | unary op t =>
    obtain ⟨hn, hs⟩ := Term.stands_unary.1 h
    have ht := build.unary.1 ht
    rw [descend, descendBy, hn]
    dsimp only
    split
    · exact ensures_throw _
    · split
      · exact ensures_stop build
      · exact ensures_unary build op (Term.counted_unary.1 counted) ht hs (hpart ht hs)
  | binary op a b =>
    obtain ⟨hn, hsa, hsb⟩ := Term.stands_binary.1 h
    obtain ⟨ca, cb⟩ := Term.counted_binary.1 counted
    obtain ⟨ha, hb⟩ := build.binary.1 ht
    have hexp : I (.unary .exp (.binary .mul (.unary .ln a) b)) :=
      build.unary.2 (build.binary.2 ⟨build.unary.2 ha, hb⟩)
    rw [descend, descendBy, hn]
    dsimp only
    split
    · exact ensures_stop build
    · exact ensures_binary build op ca cb ha hb hsa hsb (hpart ha hsa) (hpart hb hsb)
        (hpart hexp (stands_self _))
  | branch c a b =>
    obtain ⟨hn, hsc, hsa, hsb⟩ := Term.stands_branch.1 h
    obtain ⟨cc, -, -⟩ := Term.counted_branch.1 counted
    obtain ⟨hc, ha, hb⟩ := build.branch.1 ht
    rw [descend, descendBy, hn]
    exact ensures_branch build cc hc hsc hsa hsb (hpart ha (stands_body hsa))
      (hpart hb (stands_body hsb))
  | loop kind v lower upper body =>
    obtain ⟨hn, hv, hl, hu, hb⟩ := Term.stands_loop.1 h
    obtain ⟨cl, cu, cb⟩ := Term.counted_loop.1 counted
    rw [descend, descendBy, hn]
    refine ensures_loop build valid hv cl cu cb hl hu hb (ensures_whole_null depth stack target) ?_
    intro t hexpands fits x
    have hterm := closed.unrolled ht hexpands fits x
    exact ⟨hterm, hpart hterm (stands_self _)⟩
  | call f args =>
    obtain ⟨hn, hargs⟩ := Term.stands_call.1 h
    obtain ⟨cargs, hlen⟩ := Term.counted_call.1 counted
    have hargument := closed.argument ht
    rw [descend, descendBy, hn]
    exact ensures_call build parameters htarget args hlen cargs hargs
      (fun t ht pos hs => hpart (hargument t ht) hs)
      fun function found hargc _ => hbody ht found hargc

/-- Where the flat form of a term of a class stands, the descent gives a form of the class. -/
theorem ensures_descend (valid : ctx.env.BodiesValid) (parameters : ∀ i, T (.arg i))
    (bodies : Kept ctx T lost J J) (depth : Nat) :
    ∀ {I : Term → Prop}, Kept ctx T lost J I → ∀ {t : Term}, I t → ∀ stack target nodes pos, T target →
      Stands nodes pos t.encode.nodes → Derives lost I (ctx.descend depth) stack target nodes pos := by
  induction depth with
  | zero => intro I _ t _ stack target nodes pos _ _ r h; cases h
  | succ depth ih =>
    intro I kept t ht stack target nodes pos htarget h
    refine ensures_descend_succ valid kept.passedDown parameters htarget
      (fun ht h => ih kept ht stack target _ _ htarget h) ?_ ht h
    intro f args function ht found hargc target htarget
    refine ensures_body valid found fun b fits hb d hd => ?_
    have hform : IsForm lost J d :=
      ensures_whole (ih bodies (kept.body ht found hargc hb fits) _ target _ 0 htarget (stands_self _))
        d hd
    refine hform.instantiate (fun p hp => bodies.counted hp) ?_ fun p hp fits =>
      kept.instantiated hp fits (kept.argument ht)
    rintro p hp rfl
    rw [← hb] at hd
    exact kept.readable ht found depth _ target p htarget hp hd

end

end Derivation

end PrefixCalculus
