import PrefixCalculus.Numeric.Series
import PrefixCalculus.Proofs.SuppliedTerms
set_option autoImplicit false

/-!
Derivatives by a target that nothing depends on. The rules test for the literal zero before they build
anything, so from operands with the derivative zero no tree grows, and sums start from zero. What a
loop or a call differentiates in place of the operands is supplied by the same expression, and does
not depend on the target either. Main statement: where an expression does not depend on the target
its derivative, if there is one, is the positive literal zero.
-/

namespace PrefixCalculus

/-! Rules -/

namespace Folding

variable [SpecialFunctions]

theorem powerRule_zero (a b : Expression) : powerRule a b zero = zero := by
  simp [powerRule]

theorem logBaseRule_zero (a b : Expression) : logBaseRule a b zero = zero :=
  div_zero_left _

theorem quotientRule_zero (a b : Expression) : quotientRule a b zero zero = zero := by
  simp [quotientRule, div_zero_left]

theorem productRule_zero (a b : Expression) : add (mul zero b) (mul a zero) = zero := by
  rw [mul_zero_left, mul_zero_right, add_zero_left]

theorem sub_zero_right (a : Expression) : sub a zero = a := by
  simp [sub]

theorem eq_zero_of_binary_derivative? {op : BinaryOp} {a b d : Expression}
    (h : op.derivative? a b zero zero = some d) : d = zero := by
  cases op <;> simp only [BinaryOp.derivative?, Option.some.injEq, reduceCtorEq] at h <;> subst h
  case add => exact add_zero_left _
  case sub => exact sub_zero_right _
  case mul => exact productRule_zero a b
  case div => exact quotientRule_zero a b
  case max | min => simp [pickRule]
  case beta => simp [betaRule]

end Folding

/-! Targets that are not supplied -/

namespace Target

def Spared (env : Environment) (origin : Array Node) (params : UInt32 → Prop) : Target → Prop
  | .var a => ¬Reads env origin a
  | .arg i => ¬params i

variable {env : Environment} {origin : Array Node} {params : UInt32 → Prop} {target : Target}

theorem spared_self_iff {e : Expression} :
    target.Spared env e.nodes (fun i => Node.arg i ∈ e.nodes) ↔ e.dependsOn target env = false := by
  rw [← Bool.not_eq_true]
  cases target with
  | var a => exact not_congr (e.dependsOnVar_iff a env).symm
  | arg i =>
    simp only [Expression.dependsOn, Array.any_eq_true']
    refine not_congr ⟨?_, ?_⟩
    · exact fun hi => ⟨.arg i, hi, by simp [isNode]⟩
    · rintro ⟨n, hn, hnode⟩
      cases n <;> simp [isNode] at hnode
      rwa [hnode]

theorem Spared.isNode {n : Node} (h : target.Spared env origin params)
    (hn : n.Supplied env origin params) : target.isNode n = false := by
  rw [← Bool.not_eq_true]
  intro hnode
  cases target <;> cases n <;> simp [Target.isNode] at hnode <;> subst hnode <;> exact h hn

theorem Spared.independent {t : Term} (h : target.Spared env origin params)
    (ht : t.SuppliedBy env origin params) : t.encode.dependsOn target env = false := by
  refine spared_self_iff.1 ?_
  cases target with
  | var a => exact fun ha => h (ht.reads ha)
  | arg i => exact fun hi => h (ht.param hi)

end Target

/-! Rules of the descent -/

namespace Derivation

section

variable [SpecialFunctions]

section

variable {go : Descent} {stack : List FunctionId} {target : Target} {nodes : Array Node} {pos : Nat}

/-- No derivative but the literal zero comes of the descent from the position. -/
def Vanishes (go : Descent) (stack : List FunctionId) (target : Target) (nodes : Array Node)
    (pos : Nat) : Prop :=
  Ensures (go stack target nodes pos) fun r => r.1 = Folding.zero

omit [SpecialFunctions] in
theorem vanishes_whole {e : Expression} (h : Vanishes go stack target e.nodes 0) :
    Ensures (whole go stack target e) (· = Folding.zero) :=
  Ensures.bind h fun _ hd => ensures_pure hd

theorem vanishes_unary {t : Term} (op : UnaryOp) (counted : t.Counted)
    (h : Stands nodes (pos + 1) t.encode.nodes) (hgo : Vanishes go stack target nodes (pos + 1)) :
    Ensures (unary .total go stack target nodes pos op) fun r => r.1 = Folding.zero := by
  refine (lands_unary (D := (· = Folding.zero)) (P := (· = Folding.zero)) counted h hgo rfl
    ?_).derivative
  rintro _ d rfl hne
  cases hne

theorem vanishes_binary {ctx : Derivation} {a b : Term} (op : BinaryOp) (ca : a.Counted)
    (cb : b.Counted) (hsa : Stands nodes (pos + 1) a.encode.nodes)
    (hsb : Stands nodes (pos + 1 + a.size) b.encode.nodes)
    (independent : b.encode.dependsOn target ctx.env = false)
    (hgo : Vanishes go stack target nodes (pos + 1))
    (hgo' : Vanishes go stack target nodes (pos + 1 + a.size)) :
    Ensures (binary .total ctx go stack target nodes pos op) fun r => r.1 = Folding.zero := by
  refine (lands_binary (D := (· = Folding.zero)) (P := (· = Folding.zero)) ca cb hsa hsb hgo hgo'
    ?_ ?_ ?_).derivative
  · intro depends
    rw [independent] at depends
    cases depends
  · rintro _ rfl
    exact ⟨Folding.powerRule_zero _ _, rfl, Folding.logBaseRule_zero _ _⟩
  · rintro _ _ d rfl rfl hd
    exact Folding.eq_zero_of_binary_derivative? hd

omit [SpecialFunctions] in
theorem vanishes_branch {c a b : Term} (counted : c.Counted)
    (hsc : Stands nodes (pos + 1) c.encode.nodes)
    (hsa : Stands nodes (pos + 1 + c.size) (Expression.spanned a.encode.nodes))
    (hsb : Stands nodes (pos + 1 + c.size + (a.size + 2)) (Expression.spanned b.encode.nodes))
    (hgo : Vanishes go stack target nodes (pos + 1 + c.size + 1))
    (hgo' : Vanishes go stack target nodes (pos + 1 + c.size + (a.size + 2) + 1)) :
    Ensures (branch .total go stack target nodes pos) fun r => r.1 = Folding.zero := by
  refine (lands_branch (D := (· = Folding.zero)) (P := (· = Folding.zero)) counted hsc hsa hsb hgo
    hgo' rfl ?_).derivative
  rintro _ _ rfl rfl hne
  cases hne

/-! Loops -/

theorem vanishes_sumTerms {diff : Expression → Attempt Expression} {terms : List Expression}
    (h : ∀ e ∈ terms, Ensures (diff e) (· = Folding.zero)) :
    Ensures (sumTerms diff terms Folding.zero) (· = Folding.zero) := by
  induction terms with
  | nil => exact ensures_pure rfl
  | cons e terms ih =>
    obtain ⟨he, hterms⟩ := List.forall_mem_cons.1 h
    refine he.bind ?_
    rintro _ rfl
    rw [Folding.add_zero_left]
    exact ih hterms

theorem vanishes_sumProducts {diff : Expression → Attempt Expression} {factors : List Expression}
    (h : ∀ e ∈ factors, Ensures (diff e) (· = Folding.zero)) :
    ∀ before, Ensures (sumProducts diff before factors Folding.zero) (· = Folding.zero) := by
  induction factors with
  | nil => exact fun before => ensures_pure rfl
  | cons e factors ih =>
    intro before
    obtain ⟨he, hfactors⟩ := List.forall_mem_cons.1 h
    refine he.bind ?_
    rintro _ rfl
    exact ih hfactors _

/-! Calls -/

theorem vanishes_addPartials {body : Expression} {args derivatives : List Expression}
    (h : ∀ d ∈ derivatives, d = Folding.zero) :
    ∀ index, Ensures (addPartials go stack body args index derivatives Folding.zero)
      (· = Folding.zero) := by
  induction derivatives with
  | nil => exact fun index => ensures_pure rfl
  | cons d derivatives ih =>
    intro index
    obtain ⟨rfl, hds⟩ := List.forall_mem_cons.1 h
    exact ih hds _

theorem vanishes_chainRule {body : Expression} {args derivatives : List Expression}
    (hbody : ∀ a, target = .var a → Ensures (whole go stack target body) (· = Folding.zero))
    (hds : ∀ d ∈ derivatives, d = Folding.zero) :
    Ensures (chainRule go stack target body args derivatives) (· = Folding.zero) := by
  have hpartials : Ensures (addPartials go stack body args 0 derivatives Folding.zero)
      (· = Folding.zero) := vanishes_addPartials hds 0
  unfold chainRule
  cases target with
  | arg i => exact hpartials
  | var a =>
    refine (hbody a rfl).bind ?_
    rintro _ rfl
    exact hpartials

end

/-! The descent -/

section

variable {ctx : Derivation} (valid : ctx.env.BodiesValid) (declared : ctx.env.ParametersDeclared)
  {origin : Array Node}
include valid declared

/-- By a target that is spared, what is supplied has no derivative but zero. A body has parameters of
its own, but it is differentiated by a variable only, which is spared there too. -/
theorem vanishes_descend (depth : Nat) : ∀ {params : UInt32 → Prop} {t : Term},
    t.SuppliedBy ctx.env origin params → ∀ stack target nodes pos,
      target.Spared ctx.env origin params → Stands nodes pos t.encode.nodes →
        Vanishes (ctx.descend depth) stack target nodes pos := by
  induction depth with
  | zero => intro _ _ _ stack target nodes pos _ _ r h; cases h
  | succ depth ih =>
    intro params t ht stack target nodes pos spared h
    unfold Vanishes
    cases t with
    | literal x =>
      rw [descend, descendBy, stands_singleton.1 h]
      exact ensures_pure rfl
    | ref a =>
      have hnode := spared.isNode (n := .ref a) (Term.suppliedBy_ref.1 ht)
      rw [descend, descendBy, stands_singleton.1 h]
      simp only [hnode]
      exact ensures_pure rfl
    | arg i =>
      have hnode := spared.isNode (n := .arg i) (Term.suppliedBy_arg.1 ht)
      rw [descend, descendBy, stands_singleton.1 h]
      simp only [hnode]
      exact ensures_pure rfl
    | unary op t =>
      obtain ⟨hn, hs⟩ := Term.stands_unary.1 h
      have ht := Term.suppliedBy_unary.1 ht
      rw [descend, descendBy, hn]
      dsimp only
      split
      · exact ensures_throw _
      · split
        · exact (ensures_any _).bind fun _ _ => ensures_pure rfl
        · exact vanishes_unary op ht.counted hs (ih ht _ _ _ _ spared hs)
    | binary op a b =>
      obtain ⟨hn, hsa, hsb⟩ := Term.stands_binary.1 h
      obtain ⟨ha, hb⟩ := Term.suppliedBy_binary.1 ht
      rw [descend, descendBy, hn]
      dsimp only
      split
      · exact (ensures_any _).bind fun _ _ => ensures_pure rfl
      · exact vanishes_binary op ha.counted hb.counted hsa hsb (spared.independent hb)
          (ih ha _ _ _ _ spared hsa) (ih hb _ _ _ _ spared hsb)
    | branch c a b =>
      obtain ⟨hn, hsc, hsa, hsb⟩ := Term.stands_branch.1 h
      obtain ⟨hc, ha, hb⟩ := Term.suppliedBy_branch.1 ht
      rw [descend, descendBy, hn]
      exact vanishes_branch hc.counted hsc hsa hsb (ih ha _ _ _ _ spared (stands_body hsa))
        (ih hb _ _ _ _ spared (stands_body hsb))
    | loop kind v lower upper body =>
      obtain ⟨hn, hv, hl, hu, hb⟩ := Term.stands_loop.1 h
      obtain ⟨-, hlower, hupper, hbody⟩ := Term.suppliedBy_loop.1 ht
      rw [descend, descendBy, hn]
      dsimp only
      refine ensures_loop_terms (P := (· = Folding.zero)) valid hv hlower.counted hupper.counted
        hbody.counted hl hu hb ?_
      intro t terms hexpands hterms
      have hzero : ∀ e ∈ terms,
          Ensures (whole (ctx.descend depth) stack target e) (· = Folding.zero) := by
        intro e he
        obtain ⟨-, rfl⟩ | ⟨-, x, rfl⟩ := hterms e he
        · exact fun d hd => (ensures_whole_null depth stack target d hd).elim
        · have hterm := (hexpands.suppliedBy valid declared hbody).replace (v := v) x
          exact vanishes_whole (ih hterm _ _ _ 0 spared (stands_self _))
      exact ⟨vanishes_sumTerms hzero, vanishes_sumProducts hzero []⟩
    | call f args =>
      obtain ⟨hn, hargs⟩ := Term.stands_call.1 h
      obtain ⟨reached, hlen, hsupplied⟩ := Term.suppliedBy_call.1 ht
      rw [descend, descendBy, hn]
      dsimp only
      refine (lands_call (D := (· = Folding.zero)) (P := (· = Folding.zero)) args hlen
        (fun t ht => (hsupplied t ht).counted) hargs
        (fun t ht pos hs => ih (hsupplied t ht) _ _ _ pos spared hs) ?_).derivative
      intro function found _ _ ds hds
      refine vanishes_chainRule ?_ hds
      rintro a rfl
      refine ensures_body valid found fun b fits flat => ?_
      exact vanishes_whole (ih (Term.suppliedBy_body declared reached found flat fits) _ _ _ 0 spared
        (stands_self _))

end

/-- **What does not depend on the target has the derivative zero.** Where functions have valid bodies or
none, with no more parameters than they take, the derivative of an expression that does not depend on
the target is the positive literal zero, if there is one, whatever loops and calls are in the
expression. -/
theorem derivative_of_independent (env : Environment) (valid : env.BodiesValid)
    (declared : env.ParametersDeclared) (limit : UInt64) (e : Expression) (target : Target)
    (independent : e.dependsOn target env = false) (depth : Nat) (d : Expression)
    (h : (differentiateWithin ⟨env, limit⟩ depth e target).run = some (.ok d)) :
    d = .const 0.0 := by
  have hensures : Ensures (differentiateWithin ⟨env, limit⟩ depth e target) (· = Folding.zero) := by
    refine (ensures_orDefect fun _ hcheck => hcheck).bind fun _ hcheck => ?_
    obtain ⟨t, fits, rfl⟩ := Term.check_eq_ok_iff.1 hcheck
    have spared := Target.spared_self_iff.2 independent
    have hvanishes : Vanishes (descend ⟨env, limit⟩ depth) [] target t.encode.nodes 0 :=
      vanishes_descend valid declared depth (Term.suppliedBy_self env fits) _ _ _ _ spared
        (stands_self _)
    exact vanishes_whole hvanishes
  exact hensures d h

end

open Series

def nestedSum : Term :=
  .loop .sum ⟨0⟩ (.const 1.0) (.const 2.0) (.call ⟨0⟩ [.arg 3])

/-- The bodies of both functions have a first parameter, but the sum over `f(_3)` does not depend on
it. -/
theorem derivative_of_independent_nestedSum :
    nestedStore.BodiesValid ∧ nestedStore.ParametersDeclared ∧
    nestedSum.encode.dependsOn (.arg 0) nestedStore = false ∧
    (differentiateWithin ⟨nestedStore, 8⟩ 8 nestedSum.encode (.arg 0)).run
      = some (.ok (.const 0.0)) ∧
    Expression.const 0.0 ≠ Expression.const (-0.0) := by
  have independent : nestedSum.encode.dependsOn (.arg 0) nestedStore = false := by decide +kernel
  obtain ⟨d, hd⟩ : ∃ d, (differentiateWithin ⟨nestedStore, 8⟩ 8 nestedSum.encode (.arg 0)).run
      = some (.ok d) := exists_of_isOk (by decide +kernel)
  obtain rfl := derivative_of_independent nestedStore bodiesValid_nestedStore
    parametersDeclared_nestedStore 8 _ (.arg 0) independent 8 d hd
  exact ⟨bodiesValid_nestedStore, parametersDeclared_nestedStore, independent, hd, by decide⟩

end Derivation

end PrefixCalculus
