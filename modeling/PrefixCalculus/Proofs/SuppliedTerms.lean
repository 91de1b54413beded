import PrefixCalculus.Numeric.Series
import PrefixCalculus.Proofs.DerivedTerms
import PrefixCalculus.Proofs.OpenNodes
set_option autoImplicit false

/-!
Where the variables, parameters and calls of a derivative come from. Bodies of functions are spliced
into it, by the expansion of loops and by the chain rule, and every parameter of a body is replaced by
an argument there. Main statement: a derivative may depend on no variable that the expression does not
depend on, has no parameter that the expression does not have, and calls no function that the
expression does not reach.
-/

namespace PrefixCalculus

def Environment.ParametersDeclared (env : Environment) : Prop :=
  ∀ f function, env.function? f = some function →
    ∀ i, Node.arg i ∈ function.body.nodes → i.toNat < function.argc.toNat

theorem Environment.parametersDeclared_of_entries {env : Environment} (h : ∀ entry ∈ env.entries,
    ∀ i, Node.arg i ∈ entry.function.body.nodes → i.toNat < entry.function.argc.toNat) :
    env.ParametersDeclared := by
  intro f function found
  obtain ⟨entry, hmem, rfl⟩ := exists_entry_of_function? found
  exact h entry hmem

/-- The variable is read from the origin, the parameter is admitted, the function is reached from the
origin. -/
def Node.Supplied (env : Environment) (origin : Array Node) (params : UInt32 → Prop) : Node → Prop
  | .ref a => Reads env origin a
  | .arg i => params i
  | .call f _ => Reaches env origin f
  | _ => True

namespace Term

structure SuppliedBy (env : Environment) (origin : Array Node) (params : UInt32 → Prop) (t : Term) :
    Prop where
  counted : t.Counted
  openNodes : ∀ n ∈ t.encode.openNodes, n.Supplied env origin params

section

variable {env : Environment} {origin : Array Node} {params : UInt32 → Prop}

theorem suppliedBy_literal (x : Literal) : SuppliedBy env origin params (literal x) :=
  ⟨by simp [Counted, calls], by simp⟩

theorem suppliedBy_ref {a : Address} :
    SuppliedBy env origin params (ref a) ↔ PrefixCalculus.Reads env origin a :=
  ⟨fun h => h.openNodes (.ref a) (by simp), fun h =>
    ⟨by simp [Counted, calls], by simpa [Node.Supplied] using h⟩⟩

theorem suppliedBy_arg {i : UInt32} : SuppliedBy env origin params (arg i) ↔ params i :=
  ⟨fun h => h.openNodes (.arg i) (by simp), fun h =>
    ⟨by simp [Counted, calls], by simpa [Node.Supplied] using h⟩⟩

theorem suppliedBy_unary {op : UnaryOp} {t : Term} :
    SuppliedBy env origin params (unary op t) ↔ SuppliedBy env origin params t := by
  constructor
  · rintro ⟨counted, h⟩
    rw [openNodes_unary] at h
    exact ⟨counted_unary.1 counted, h⟩
  · rintro ⟨counted, h⟩
    exact ⟨counted_unary.2 counted, by rwa [openNodes_unary]⟩

theorem suppliedBy_binary {op : BinaryOp} {a b : Term} : SuppliedBy env origin params (binary op a b) ↔
    SuppliedBy env origin params a ∧ SuppliedBy env origin params b := by
  constructor
  · rintro ⟨counted, h⟩
    rw [openNodes_binary, List.forall_mem_append] at h
    obtain ⟨ca, cb⟩ := counted_binary.1 counted
    exact ⟨⟨ca, h.1⟩, cb, h.2⟩
  · rintro ⟨ha, hb⟩
    refine ⟨counted_binary.2 ⟨ha.counted, hb.counted⟩, ?_⟩
    rw [openNodes_binary, List.forall_mem_append]
    exact ⟨ha.openNodes, hb.openNodes⟩

theorem suppliedBy_branch {c a b : Term} : SuppliedBy env origin params (branch c a b) ↔
    SuppliedBy env origin params c ∧ SuppliedBy env origin params a ∧
      SuppliedBy env origin params b := by
  constructor
  · rintro ⟨counted, h⟩
    rw [openNodes_branch, List.forall_mem_append, List.forall_mem_append] at h
    obtain ⟨cc, ca, cb⟩ := counted_branch.1 counted
    exact ⟨⟨cc, h.1.1⟩, ⟨ca, h.1.2⟩, cb, h.2⟩
  · rintro ⟨hc, ha, hb⟩
    refine ⟨counted_branch.2 ⟨hc.counted, ha.counted, hb.counted⟩, ?_⟩
    rw [openNodes_branch, List.forall_mem_append, List.forall_mem_append]
    exact ⟨⟨hc.openNodes, ha.openNodes⟩, hb.openNodes⟩

theorem suppliedBy_loop {kind : Fold} {v : Address} {lower upper body : Term} :
    SuppliedBy env origin params (loop kind v lower upper body) ↔
      PrefixCalculus.Reads env origin v ∧ SuppliedBy env origin params lower ∧
        SuppliedBy env origin params upper ∧ SuppliedBy env origin params body := by
  constructor
  · rintro ⟨counted, h⟩
    rw [openNodes_loop, List.forall_mem_cons, List.forall_mem_append, List.forall_mem_append] at h
    obtain ⟨cl, cu, cb⟩ := counted_loop.1 counted
    exact ⟨h.1, ⟨cl, h.2.1.1⟩, ⟨cu, h.2.1.2⟩, cb, h.2.2⟩
  · rintro ⟨hv, hl, hu, hb⟩
    refine ⟨counted_loop.2 ⟨hl.counted, hu.counted, hb.counted⟩, ?_⟩
    rw [openNodes_loop, List.forall_mem_cons, List.forall_mem_append, List.forall_mem_append]
    exact ⟨hv, ⟨hl.openNodes, hu.openNodes⟩, hb.openNodes⟩

theorem suppliedBy_call {f : FunctionId} {args : List Term} :
    SuppliedBy env origin params (call f args) ↔ Reaches env origin f ∧ args.length < UInt32.size ∧
      ∀ t ∈ args, SuppliedBy env origin params t := by
  constructor
  · rintro ⟨counted, h⟩
    rw [openNodes_call, List.forall_mem_cons] at h
    obtain ⟨cargs, hlen⟩ := counted_call.1 counted
    exact ⟨h.1, hlen, fun t ht => ⟨cargs t ht, fun n hn => h.2 n (List.mem_flatMap.2 ⟨t, ht, hn⟩)⟩⟩
  · rintro ⟨hf, hlen, hargs⟩
    refine ⟨counted_call.2 ⟨fun t ht => (hargs t ht).counted, hlen⟩, ?_⟩
    rw [openNodes_call, List.forall_mem_cons]
    refine ⟨hf, fun n hn => ?_⟩
    obtain ⟨t, ht, hn⟩ := List.mem_flatMap.1 hn
    exact (hargs t ht).openNodes n hn

theorem buildable_suppliedBy : Buildable (SuppliedBy env origin params) :=
  ⟨suppliedBy_literal, suppliedBy_unary, suppliedBy_binary, suppliedBy_branch⟩

theorem suppliedBy_self (env : Environment) {t : Term} (fits : t.Fits) :
    SuppliedBy env t.encode.nodes (fun i => Node.arg i ∈ t.encode.nodes) t where
  counted := counted_of_fits t fits
  openNodes n hn := by
    have hmem := (Expression.mem_openNodes.1 hn).1
    cases n with
    | ref a => exact .inl hmem
    | arg i => exact hmem
    | call f argc => exact .direct ⟨argc, hmem⟩
    | _ => trivial

theorem suppliedBy_body (declared : env.ParametersDeclared) {f : FunctionId} {function : Function}
    {b : Term} (reached : Reaches env origin f) (found : env.function? f = some function)
    (flat : function.body = b.encode) (fits : b.Fits) :
    SuppliedBy env origin (fun i => i.toNat < function.argc.toNat) b where
  counted := counted_of_fits b fits
  openNodes n hn := by
    have hmem := (Expression.mem_openNodes.1 hn).1
    rw [← flat] at hmem
    cases n with
    | ref a => exact .inr ⟨f, function, reached, found, hmem⟩
    | arg i => exact declared f function found i hmem
    | call g argc => exact .through reached found ⟨argc, hmem⟩
    | _ => trivial

/-! Splicing -/

theorem SuppliedBy.replace {v : Address} (x : Float) (t : Term) :
    SuppliedBy env origin params t → SuppliedBy env origin params (replace v (const x) t) := by
  induction t using Term.induction with
  | literal | arg => exact fun h => h
  | ref a =>
    intro h
    rw [Term.replace]
    split
    · exact suppliedBy_literal _
    · exact h
  | unary op t ih => exact fun h => suppliedBy_unary.2 (ih (suppliedBy_unary.1 h))
  | binary op a b iha ihb =>
    exact fun h => suppliedBy_binary.2 ((suppliedBy_binary.1 h).imp iha ihb)
  | branch c a b ihc iha ihb =>
    exact fun h => suppliedBy_branch.2 ((suppliedBy_branch.1 h).imp ihc (And.imp iha ihb))
  | loop kind w lower upper body ihl ihu ihb =>
    intro h
    obtain ⟨hw, hl, hu, hb⟩ := suppliedBy_loop.1 h
    refine suppliedBy_loop.2 ⟨hw, ihl hl, ihu hu, ?_⟩
    split
    · exact hb
    · exact ihb hb
  | call f args ih =>
    intro h
    obtain ⟨hf, hlen, hargs⟩ := suppliedBy_call.1 h
    rw [Term.replace, replaceAll_eq_map]
    refine suppliedBy_call.2 ⟨hf, by rwa [List.length_map], fun u hu => ?_⟩
    obtain ⟨t, ht, rfl⟩ := List.mem_map.1 hu
    exact ih t ht (hargs t ht)

/-- With as many arguments as it has parameters a body has only what the arguments bring along. -/
theorem SuppliedBy.instantiate {args : List Term} (hargs : ∀ t ∈ args, SuppliedBy env origin params t)
    (b : Term) : SuppliedBy env origin (fun i => i.toNat < args.length) b →
      SuppliedBy env origin params (b.instantiate args) := by
  induction b using Term.induction with
  | literal x => exact fun _ => suppliedBy_literal x
  | ref a => exact fun h => suppliedBy_ref.2 (suppliedBy_ref.1 h)
  | arg i =>
    intro h
    have hi : i.toNat < args.length := suppliedBy_arg.1 h
    rw [Term.instantiate, List.getElem?_eq_getElem hi]
    exact hargs _ (List.getElem_mem hi)
  | unary op t ih => exact fun h => suppliedBy_unary.2 (ih (suppliedBy_unary.1 h))
  | binary op a b iha ihb =>
    exact fun h => suppliedBy_binary.2 ((suppliedBy_binary.1 h).imp iha ihb)
  | branch c a b ihc iha ihb =>
    exact fun h => suppliedBy_branch.2 ((suppliedBy_branch.1 h).imp ihc (And.imp iha ihb))
  | loop kind w lower upper body ihl ihu ihb =>
    exact fun h => suppliedBy_loop.2 ((suppliedBy_loop.1 h).imp_right (And.imp ihl (And.imp ihu ihb)))
  | call f ts ih =>
    intro h
    obtain ⟨hf, hlen, hts⟩ := suppliedBy_call.1 h
    rw [Term.instantiate, instantiateAll_eq_map]
    refine suppliedBy_call.2 ⟨hf, by rwa [List.length_map], fun u hu => ?_⟩
    obtain ⟨t, ht, rfl⟩ := List.mem_map.1 hu
    exact ih t ht (hts t ht)

theorem SuppliedBy.inlineCalls {body? : FunctionId → Nat → Option Term}
    (hbody : ∀ f argc b, Reaches env origin f → body? f argc = some b →
      SuppliedBy env origin (fun i => i.toNat < argc) b) (t : Term) :
    SuppliedBy env origin params t → SuppliedBy env origin params (t.inlineCalls body?) := by
  induction t using Term.induction with
  | literal | ref | arg => exact fun h => h
  | unary op t ih => exact fun h => suppliedBy_unary.2 (ih (suppliedBy_unary.1 h))
  | binary op a b iha ihb =>
    exact fun h => suppliedBy_binary.2 ((suppliedBy_binary.1 h).imp iha ihb)
  | branch c a b ihc iha ihb =>
    exact fun h => suppliedBy_branch.2 ((suppliedBy_branch.1 h).imp ihc (And.imp iha ihb))
  | loop kind w lower upper body ihl ihu ihb =>
    exact fun h => suppliedBy_loop.2 ((suppliedBy_loop.1 h).imp_right (And.imp ihl (And.imp ihu ihb)))
  | call f args ih =>
    intro h
    obtain ⟨hf, hlen, hargs⟩ := suppliedBy_call.1 h
    have hinlined : ∀ u ∈ args.map (Term.inlineCalls body?), SuppliedBy env origin params u := by
      intro u hu
      obtain ⟨t, ht, rfl⟩ := List.mem_map.1 hu
      exact ih t ht (hargs t ht)
    rw [Term.inlineCalls, inlineCallsAll_eq_map]
    split
    · rename_i b hb
      refine .instantiate hinlined b ?_
      rw [List.length_map]
      exact hbody f args.length b hf hb
    · exact suppliedBy_call.2 ⟨hf, by rwa [List.length_map], hinlined⟩

theorem Expands.suppliedBy (valid : env.BodiesValid) (declared : env.ParametersDeclared) {v : Address}
    {t t' : Term} (h : Expands env v t t') (ht : SuppliedBy env origin params t) :
    SuppliedBy env origin params t' := by
  induction h with
  | done => exact ht
  | pass _ _ ih =>
    refine ih (.inlineCalls (fun f argc b reached hb => ?_) _ ht)
    obtain ⟨function, found, rfl, flat, fits, -⟩ := readerTerm?_eq_some valid hb
    exact suppliedBy_body declared reached found flat fits

theorem passedDown_suppliedBy (valid : env.BodiesValid) (declared : env.ParametersDeclared) :
    Derivation.PassedDown env (SuppliedBy env origin params) where
  toBuildable := buildable_suppliedBy
  counted h := h.counted
  argument h := (suppliedBy_call.1 h).2.2
  unrolled h hexpands _ x :=
    (hexpands.suppliedBy valid declared (suppliedBy_loop.1 h).2.2.2).replace x

/-! What is read and reached -/

theorem SuppliedBy.reaches {t : Term} (h : SuppliedBy env origin params t) {f : FunctionId}
    (hf : Reaches env t.encode.nodes f) : Reaches env origin f := by
  induction hf with
  | direct hcall =>
    obtain ⟨argc, hcall⟩ := hcall
    exact h.openNodes _ (Expression.mem_openNodes.2 ⟨hcall, rfl⟩)
  | through _ found hcall ih => exact .through ih found hcall

theorem SuppliedBy.reads {t : Term} (h : SuppliedBy env origin params t) {a : Address}
    (ha : PrefixCalculus.Reads env t.encode.nodes a) : PrefixCalculus.Reads env origin a := by
  obtain hmem | ⟨f, function, reached, found, hmem⟩ := ha
  · exact h.openNodes _ (Expression.mem_openNodes.2 ⟨hmem, rfl⟩)
  · exact .inr ⟨f, function, h.reaches reached, found, hmem⟩

theorem SuppliedBy.param {t : Term} (h : SuppliedBy env origin params t) {i : UInt32}
    (hi : Node.arg i ∈ t.encode.nodes) : params i :=
  h.openNodes _ (Expression.mem_openNodes.2 ⟨hi, rfl⟩)

end

end Term

namespace Derivation

section

variable [SpecialFunctions]

section

variable {ctx : Derivation} (valid : ctx.env.BodiesValid) (declared : ctx.env.ParametersDeclared)
  {origin : Array Node}
include valid declared

/-- The derivative of a term that is supplied is null or supplied too; the bodies on the way have
parameters of their own. -/
theorem ensures_descend_supplied (depth : Nat) : ∀ {params : UInt32 → Prop} {t : Term},
    t.SuppliedBy ctx.env origin params → ∀ stack target nodes pos, Stands nodes pos t.encode.nodes →
      Derives True (Term.SuppliedBy ctx.env origin params) (ctx.descend depth) stack target nodes
        pos := by
  induction depth with
  | zero => intro _ _ _ stack target nodes pos _ r h; cases h
  | succ depth ih =>
    intro params t ht stack target nodes pos h
    have closed : PassedDown ctx.env (Term.SuppliedBy ctx.env origin params) :=
      Term.passedDown_suppliedBy valid declared
    refine ensures_descend_succ (T := fun _ => True) valid closed (fun _ => trivial) trivial
      (fun ht h => ih ht stack target _ _ h) ?_ ht h
    intro f args function ht found hargc target _
    obtain ⟨reached, -, hargs⟩ := Term.suppliedBy_call.1 ht
    refine ensures_body valid found fun b fits flat d hd => ?_
    have hbody := Term.suppliedBy_body declared reached found flat fits
    have hform := ensures_whole (ih hbody (f :: stack) target _ 0 (stands_self _)) d hd
    rw [hargc] at hform
    exact hform.instantiate (fun p hp => hp.counted) (fun _ _ _ => .inl trivial)
      fun p hp _ => hp.instantiate hargs p

theorem isForm_of_differentiateWithin {e d : Expression} {target : Target} {depth : Nat}
    (h : (ctx.differentiateWithin depth e target).run = some (.ok d)) :
    IsForm True (Term.SuppliedBy ctx.env e.nodes fun i => Node.arg i ∈ e.nodes) d := by
  have hensures : Ensures (ctx.differentiateWithin depth e target)
      (IsForm True (Term.SuppliedBy ctx.env e.nodes fun i => Node.arg i ∈ e.nodes)) := by
    refine (ensures_orDefect fun _ hcheck => hcheck).bind fun _ hcheck => ?_
    obtain ⟨t, fits, rfl⟩ := Term.check_eq_ok_iff.1 hcheck
    exact ensures_whole (ensures_descend_supplied valid declared depth
      (Term.suppliedBy_self ctx.env fits) [] target _ 0 (stands_self _))
  exact hensures d h

end

/-- **Derivatives depend on nothing new.** Where functions have valid bodies or none, with no more
parameters than they take, a derivative may depend on a variable only if the expression may, has only
parameters that occur in the expression, and calls only functions that the expression calls or
reaches. -/
theorem derivative_depends_on_nothing_new (env : Environment) (valid : env.BodiesValid)
    (declared : env.ParametersDeclared) (limit : UInt64) (e : Expression) (target : Target)
    (depth : Nat) (d : Expression)
    (h : (differentiateWithin ⟨env, limit⟩ depth e target).run = some (.ok d)) :
    (∀ a, d.dependsOn (.var a) env = true → e.dependsOn (.var a) env = true) ∧
    (∀ i, Node.arg i ∈ d.nodes → Node.arg i ∈ e.nodes) ∧
    ∀ f argc, Node.call f argc ∈ d.nodes → Reaches env e.nodes f := by
  simp only [Expression.dependsOn, Expression.dependsOnVar_iff]
  obtain ⟨-, rfl⟩ | ⟨t, ht, rfl⟩ := isForm_of_differentiateWithin valid declared h
  · refine ⟨fun a ha => absurd ha (not_reads_null rfl), fun i hi => ?_, fun f argc hf => ?_⟩
    · simp [Expression.null] at hi
    · simp [Expression.null] at hf
  · exact ⟨fun a ha => ht.reads ha, fun i hi => ht.param hi, fun f argc hf =>
      ht.reaches (.direct ⟨argc, hf⟩)⟩

end

open Series

/-- A variable `y`, and the functions `f(x) = g(x) * (x * y)` and `g(x) = exp(x)`. -/
def nestedStore : Environment where
  slots := #[⟨some "y", 0.5⟩]
  entries := #[⟨⟨"f", 1, (Term.binary .mul (.call ⟨1⟩ [.arg 0])
      (.binary .mul (.arg 0) (.ref ⟨0⟩))).encode⟩, true⟩,
    ⟨⟨"g", 1, (Term.unary .exp (.arg 0)).encode⟩, true⟩]

theorem bodiesValid_nestedStore : nestedStore.BodiesValid := by
  apply Environment.bodiesValid_of_entries
  intro entry hentry
  simp only [nestedStore, List.mem_toArray, List.mem_cons, List.not_mem_nil, or_false] at hentry
  obtain rfl | rfl := hentry <;> exact .inr rfl

theorem parametersDeclared_nestedStore : nestedStore.ParametersDeclared := by
  apply Environment.parametersDeclared_of_entries
  intro entry hentry i hi
  simp only [nestedStore, List.mem_toArray, List.mem_cons, List.not_mem_nil, or_false] at hentry
  have hopen : Node.arg i ∈ entry.function.body.openNodes := Expression.mem_openNodes.2 ⟨hi, rfl⟩
  obtain rfl | rfl := hentry
  · obtain rfl : i = 0 := by simpa using hopen
    decide
  · obtain rfl : i = 0 := by simpa using hopen
    decide

/-- The derivative of `f(_3)` by the fourth parameter is `exp(_3) * (_3 * y) + g(_3) * y`: the variable
and the call come from the body of `f`, the parameter from the argument. -/
theorem derivative_depends_on_nothing_new_nestedStore :
    nestedStore.BodiesValid ∧ nestedStore.ParametersDeclared ∧
    (differentiateWithin ⟨nestedStore, 8⟩ 8 (Term.call ⟨0⟩ [.arg 3]).encode (.arg 3)).run
      = some (.ok (Term.binary .add (.binary .mul (.unary .exp (.arg 3)) (.binary .mul (.arg 3)
          (.ref ⟨0⟩))) (.binary .mul (.call ⟨1⟩ [.arg 3]) (.ref ⟨0⟩))).encode) ∧
    (Term.call ⟨0⟩ [.arg 3]).encode.dependsOn (.var ⟨0⟩) nestedStore = true ∧
    Reaches nestedStore (Term.call ⟨0⟩ [.arg 3]).encode.nodes ⟨1⟩ := by
  have hd : (differentiateWithin ⟨nestedStore, 8⟩ 8 (Term.call ⟨0⟩ [.arg 3]).encode (.arg 3)).run
      = some (.ok (Term.binary .add (.binary .mul (.unary .exp (.arg 3)) (.binary .mul (.arg 3)
          (.ref ⟨0⟩))) (.binary .mul (.call ⟨1⟩ [.arg 3]) (.ref ⟨0⟩))).encode) := by decide +kernel
  obtain ⟨hreads, -, hreaches⟩ := derivative_depends_on_nothing_new nestedStore
    bodiesValid_nestedStore parametersDeclared_nestedStore 8 _ (.arg 3) 8 _ hd
  exact ⟨bodiesValid_nestedStore, parametersDeclared_nestedStore, hd,
    hreads ⟨0⟩ (by decide +kernel), hreaches ⟨1⟩ 1 (by decide +kernel)⟩

end Derivation

end PrefixCalculus
