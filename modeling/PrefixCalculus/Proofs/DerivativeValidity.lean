import PrefixCalculus.Numeric.Series
import PrefixCalculus.Proofs.DescentComparison
set_option autoImplicit false

/-!
Derivatives are complete or refused. With more depth and fewer functions under way a differentiation
has the results that it had, so what it comes to inside a call is what it comes to for the body
alone. Main statement: if no result is too long for the distances of spans, an expression with a
derivative passes the check and so does the derivative; and no derivative is null.
-/

namespace PrefixCalculus

namespace Derivation

/-! More depth, fewer functions under way -/

def Within {α : Type} (x y : Attempt α) : Prop :=
  Ensures x fun a => y.run = some (.ok a)

theorem Within.refl {α : Type} (x : Attempt α) : Within x x :=
  fun _ h => h

theorem Within.bind {α β : Type} {x y : Attempt α} {f g : α → Attempt β} (hx : Within x y)
    (hf : ∀ a, Within (f a) (g a)) : Within (x >>= f) (y >>= g) := by
  refine Ensures.bind hx fun a hy b hb => ?_
  rw [ExceptT.run_bind, hy]
  exact hf a b hb

theorem Within.of_refines {α : Type} {x y : Attempt α} (h : Refines (fun _ => True) x y) :
    Within x y := by
  intro a ha
  obtain ⟨e, he, -⟩ | hy := h _ ha
  · cases he
  · exact hy

section

variable {go go' : Descent} {stack stack' : List FunctionId} {target : Target}

/-- With the functions under way, whatever is differentiated, every result is one of the other
descent. -/
def Covered (go go' : Descent) (stack stack' : List FunctionId) : Prop :=
  ∀ target nodes pos, Within (go stack target nodes pos) (go' stack' target nodes pos)

theorem within_whole (h : Covered go go' stack stack') (e : Expression) :
    Within (whole go stack target e) (whole go' stack' target e) :=
  (h _ _ _).bind fun _ => .refl _

end

section

variable [SpecialFunctions]

/-- With more depth and fewer functions under way a descent has the results that it had. -/
theorem within_descend {ctx : Derivation} {depth more : Nat} (hd : depth ≤ more)
    (stack stack' : List FunctionId) (hsub : ∀ g ∈ stack', g ∈ stack) :
    Covered (ctx.descend depth) (ctx.descend more) stack stack' := fun target nodes pos =>
  .of_refines (follows_descend (UInt64.le_refl _) (fun _ _ => trivial) hd stack stack'
    ⟨hsub, fun _ _ _ => trivial⟩ target nodes pos)

theorem differentiateWithin_unique {ctx : Derivation} {e : Expression} {target : Target}
    {depth depth' : Nat} {d d' : Expression}
    (h : (ctx.differentiateWithin depth e target).run = some (.ok d))
    (h' : (ctx.differentiateWithin depth' e target).run = some (.ok d')) : d = d' := by
  have hgrow : ∀ depth more, depth ≤ more →
      Within (ctx.differentiateWithin depth e target) (ctx.differentiateWithin more e target) :=
    fun depth more hd =>
      .of_refines (refines_differentiateWithin (UInt64.le_refl _) (fun _ _ => trivial) hd e target)
  have hd := hgrow depth (max depth depth') (Nat.le_max_left _ _) d h
  rw [hgrow depth' (max depth depth') (Nat.le_max_right _ _) d' h'] at hd
  cases hd
  rfl

/-! Validity -/

/-- No result is too long for the distances of spans, neither the derivative of the expression nor
one of a body that it may copy, by the target or by a parameter. -/
structure ResultsFit (ctx : Derivation) (e : Expression) (target : Target) : Prop where
  whole : ∀ depth d, (ctx.differentiateWithin depth e target).run = some (.ok d) →
    d.size < UInt32.size
  body : ∀ f function, Reaches ctx.env e.nodes f → ctx.env.function? f = some function →
    ∀ inner, inner = target ∨ (∃ i, inner = .arg i) → ∀ depth d,
      (ctx.differentiateWithin depth function.body inner).run = some (.ok d) → d.size < UInt32.size

section

variable {ctx : Derivation} {e : Expression} {target : Target}

theorem differentiateWithin_of_whole (valid : ctx.env.BodiesValid) {f : FunctionId}
    {function : Function} (found : ctx.env.function? f = some function) {depth : Nat}
    {stack : List FunctionId} {d : Expression}
    (h : (whole (ctx.descend depth) stack target function.body).run = some (.ok d)) :
    (ctx.differentiateWithin depth function.body target).run = some (.ok d) := by
  have halone := within_whole (within_descend (Nat.le_refl depth) stack [] (by simp)) _ d h
  obtain hnull | hcheck := valid f function found
  · rw [(Expression.isNull_iff _).1 hnull] at h
    exact (ensures_whole_null depth stack target d h).elim
  · rw [differentiateWithin, hcheck]
    exact halone

theorem kept_reached (valid : ctx.env.BodiesValid) (results : ResultsFit ctx e target) :
    Kept ctx (fun inner => inner = target ∨ ∃ i, inner = .arg i) False
      (fun t => ∀ c ∈ t.calls, c.2 < UInt32.size ∧ Reaches ctx.env e.nodes c.1)
      (fun t => ∀ c ∈ t.calls, c.2 < UInt32.size ∧ Reaches ctx.env e.nodes c.1) := by
  refine kept_calls valid ?_ (fun _ h => h.1) ?_
  · rintro c function b ⟨-, hreached⟩ found - flat fits c' hc'
    refine ⟨Term.counted_of_fits b fits c' hc', .through hreached found ?_⟩
    rw [flat]
    exact Term.calls_of_mem_calls b hc'
  · rintro f argc function ⟨-, hreached⟩ found depth stack inner p hinner h
    have hsize := results.body f function hreached found inner hinner depth _
      (differentiateWithin_of_whole valid found h)
    rw [Expression.size, Term.size_encode] at hsize
    exact .inr (Term.fits_of_size (Nat.le_of_lt hsize))

theorem valid_of_differentiateWithin (valid : ctx.env.BodiesValid) (results : ResultsFit ctx e target)
    {depth : Nat} {d : Expression}
    (h : (ctx.differentiateWithin depth e target).run = some (.ok d)) :
    e.check = .ok () ∧ d.isNull = false ∧ d.check = .ok () := by
  have hsize := results.whole depth d h
  unfold differentiateWithin at h
  cases hcheck : e.check with
  | error defect => rw [hcheck] at h; cases h
  | ok =>
    rw [hcheck] at h
    obtain ⟨t, fits, rfl⟩ := Term.check_eq_ok_iff.1 hcheck
    have kept := kept_reached valid results
    have hcalls : ∀ c ∈ t.calls, c.2 < UInt32.size ∧ Reaches ctx.env t.encode.nodes c.1 := fun c hc =>
      ⟨Term.counted_of_fits t fits c hc, .direct (Term.calls_of_mem_calls t hc)⟩
    obtain ⟨hlost, -⟩ | ⟨p, -, rfl⟩ :=
      ensures_whole (ensures_descend valid (fun i => .inr ⟨i, rfl⟩) kept depth kept hcalls [] target
        _ 0 (.inl rfl) (stands_self _)) d h
    · exact hlost.elim
    · rw [Expression.size, Term.size_encode] at hsize
      exact ⟨rfl, Term.isNull_encode p, Term.check_encode (Term.fits_of_size (Nat.le_of_lt hsize))⟩

end

/-- **Derivatives are complete or refused.** An expression with a derivative passes the check, and the
derivative is not null and passes it too, whatever the calls in it and the loops that are written out;
null is given for a derivative by a variable exactly if there is an error. -/
theorem differentiateWithin_valid (env : Environment) (valid : env.BodiesValid) (limit : UInt64)
    (e : Expression) (target : Target) (results : ResultsFit ⟨env, limit⟩ e target) :
    (∀ depth d, (differentiateWithin ⟨env, limit⟩ depth e target).run = some (.ok d) →
      e.check = .ok () ∧ d.isNull = false ∧ d.check = .ok ()) ∧
    ∀ depth address, target = .var address →
      (e.derivativeOrNullWithin depth address env limit = some .null ↔
        ∃ error, (differentiateWithin ⟨env, limit⟩ depth e target).run = some (.error error)) := by
  refine ⟨fun depth d h => valid_of_differentiateWithin valid results h, ?_⟩
  rintro depth address rfl
  unfold Expression.derivativeOrNullWithin
  cases h : (differentiateWithin ⟨env, limit⟩ depth e (.var address)).run with
  | none => simp
  | some outcome =>
    cases outcome with
    | error error => simp
    | ok d =>
      obtain ⟨-, hnull, -⟩ := valid_of_differentiateWithin valid results h
      have hne : d ≠ .null := by
        rintro rfl
        cases hnull
      simp [hne]

end

open Series

/-- A variable `y`, and the function `f(x) = exp(x)`. -/
def exponentialStore : Environment where
  slots := #[⟨some "y", nan⟩]
  entries := #[⟨⟨"f", 1, (Term.unary .exp (.arg 0)).encode⟩, true⟩]

theorem body_exponentialStore {f : FunctionId} {function : Function}
    (found : exponentialStore.function? f = some function) :
    function.body = (Term.unary .exp (.arg 0)).encode := by
  obtain ⟨entry, hmem, rfl⟩ := Environment.exists_entry_of_function? found
  simp only [exponentialStore, List.mem_toArray, List.mem_singleton] at hmem
  rw [hmem]

theorem bodiesValid_exponentialStore : exponentialStore.BodiesValid := by
  intro f function found
  rw [body_exponentialStore found]
  exact .inr rfl

theorem differentiateWithin_exponential {target : Target} (h : target.isNode (.arg 0) = false) :
    (differentiateWithin ⟨exponentialStore, 8⟩ 3 (Term.unary .exp (.arg 0)).encode target).run
      = some (.ok Folding.zero) := by
  have hleaf : descend ⟨exponentialStore, 8⟩ 2 [] target (Term.unary .exp (.arg 0)).encode.nodes 1
      = pure (if target.isNode (.arg 0) then Folding.one else Folding.zero, 2) := rfl
  have hrule : unary .total (descend ⟨exponentialStore, 8⟩ 2) [] target
      (Term.unary .exp (.arg 0)).encode.nodes 0 .exp = pure (Folding.zero, 2) := by
    rw [unary, hleaf, h]
    rfl
  calc (differentiateWithin ⟨exponentialStore, 8⟩ 3 (Term.unary .exp (.arg 0)).encode target).run
    _ = (unary .total (descend ⟨exponentialStore, 8⟩ 2) [] target
        (Term.unary .exp (.arg 0)).encode.nodes 0 .exp >>= fun r => pure r.1).run := rfl
    _ = some (.ok Folding.zero) := by rw [hrule]; rfl

theorem resultsFit_exponentialStore :
    ResultsFit ⟨exponentialStore, 8⟩ (Term.call ⟨0⟩ [.ref ⟨0⟩]).encode (.var ⟨0⟩) where
  whole depth d h := by
    have hd : (differentiateWithin ⟨exponentialStore, 8⟩ 4 (Term.call ⟨0⟩ [.ref ⟨0⟩]).encode
        (.var ⟨0⟩)).run = some (.ok (Term.unary .exp (.ref ⟨0⟩)).encode) := by decide +kernel
    rw [differentiateWithin_unique h hd]
    decide
  body f function _ found inner _ depth d h := by
    rw [body_exponentialStore found] at h
    by_cases hinner : inner = .arg 0
    · subst hinner
      have hd : (differentiateWithin ⟨exponentialStore, 8⟩ 3 (Term.unary .exp (.arg 0)).encode
          (.arg 0)).run = some (.ok (Term.unary .exp (.arg 0)).encode) := by decide +kernel
      rw [differentiateWithin_unique h hd]
      decide
    · have hnode : inner.isNode (.arg 0) = false := by
        cases inner with
        | var a => rfl
        | arg i => simpa [Target.isNode] using hinner
      rw [differentiateWithin_unique h (differentiateWithin_exponential hnode)]
      decide

/-- The derivative of `f(y)` by `y` is `exp(y)`. -/
theorem differentiateWithin_valid_exponentialStore :
    exponentialStore.BodiesValid ∧
    ResultsFit ⟨exponentialStore, 8⟩ (Term.call ⟨0⟩ [.ref ⟨0⟩]).encode (.var ⟨0⟩) ∧
    (differentiateWithin ⟨exponentialStore, 8⟩ 4 (Term.call ⟨0⟩ [.ref ⟨0⟩]).encode (.var ⟨0⟩)).run
      = some (.ok (Term.unary .exp (.ref ⟨0⟩)).encode) ∧
    (Term.unary .exp (.ref ⟨0⟩)).encode.check = .ok () ∧
    (Term.call ⟨0⟩ [.ref ⟨0⟩]).encode.derivativeOrNullWithin 4 ⟨0⟩ exponentialStore 8
      ≠ some .null := by
  have hd : (differentiateWithin ⟨exponentialStore, 8⟩ 4 (Term.call ⟨0⟩ [.ref ⟨0⟩]).encode
      (.var ⟨0⟩)).run = some (.ok (Term.unary .exp (.ref ⟨0⟩)).encode) := by decide +kernel
  obtain ⟨hvalid, hnull⟩ := differentiateWithin_valid exponentialStore bodiesValid_exponentialStore 8 _
    (.var ⟨0⟩) resultsFit_exponentialStore
  refine ⟨bodiesValid_exponentialStore, resultsFit_exponentialStore, hd, (hvalid _ _ hd).2.2, ?_⟩
  intro h
  obtain ⟨error, herror⟩ := (hnull _ _ rfl).1 h
  rw [hd] at herror
  cases herror

end Derivation

end PrefixCalculus
