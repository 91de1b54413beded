import PrefixCalculus.Numeric.Series
import PrefixCalculus.Proofs.DerivedTerms
set_option autoImplicit false

/-!
Two differentiations side by side. They take the same steps as long as neither is refused: one with
more depth, with a higher limit for loops or with fewer functions under way is refused less often. Main
statements: such a descent has every outcome of the other, errors included, apart from the refusals for
a loop that is too long or for a function that is under way; so a higher limit changes no derivative,
and no error that is not about the limit.
-/

namespace PrefixCalculus

/-- Every outcome of the attempt is one of the other, apart from errors that are excused. -/
def Refines {α : Type} (excused : DerivativeError → Prop) (x y : Attempt α) : Prop :=
  ∀ r, x.run = some r → (∃ e, r = .error e ∧ excused e) ∨ y.run = some r

section

variable {α β : Type} {excused : DerivativeError → Prop}

theorem Refines.refl (x : Attempt α) : Refines excused x x :=
  fun _ h => .inr h

theorem refines_throw {e : DerivativeError} (h : excused e) (y : Attempt α) :
    Refines excused (throw e) y := by
  rintro r hr
  cases hr
  exact .inl ⟨e, rfl, h⟩

theorem Refines.bind {x y : Attempt α} {f g : α → Attempt β} (hx : Refines excused x y)
    (hf : ∀ a, Refines excused (f a) (g a)) : Refines excused (x >>= f) (y >>= g) := by
  intro r hr
  rw [ExceptT.run_bind] at hr
  obtain ⟨s, hs, hr⟩ := Option.bind_eq_some_iff.1 hr
  obtain ⟨e, rfl, he⟩ | hy := hx s hs
  · cases hr
    exact .inl ⟨e, rfl, he⟩
  · rw [ExceptT.run_bind, hy]
    cases s with
    | error e => exact .inr hr
    | ok a => exact hf a r hr

end

namespace Derivation

section

variable {excused : DerivativeError → Prop} {env : Environment} {limit limit' : UInt64}
  {go go' : Descent} {stack stack' : List FunctionId} {target : Target} {nodes : Array Node} {pos : Nat}

def Follows (excused : DerivativeError → Prop) (go go' : Descent) (stack stack' : List FunctionId) :
    Prop :=
  ∀ target nodes pos, Refines excused (go stack target nodes pos) (go' stack' target nodes pos)

section

variable (h : Follows excused go go' stack stack')
include h

theorem refines_whole (e : Expression) :
    Refines excused (whole go stack target e) (whole go' stack' target e) :=
  (h _ _ _).bind fun _ => .refl _

variable [SpecialFunctions]

theorem refines_unary {op : UnaryOp} :
    Refines excused (unary .total go stack target nodes pos op) (unary .total go' stack' target nodes pos op) :=
  (Refines.refl _).bind fun _ => (h _ _ _).bind fun _ => .refl _

theorem refines_binary {op : BinaryOp} :
    Refines excused (binary .total ⟨env, limit⟩ go stack target nodes pos op)
      (binary .total ⟨env, limit'⟩ go' stack' target nodes pos op) := by
  have hleft : Refines excused (go stack target nodes (pos + 1) >>= fun r => pure r.1)
      (go' stack' target nodes (pos + 1) >>= fun r => pure r.1) :=
    (h _ _ _).bind fun _ => .refl _
  refine (Refines.refl _).bind fun a => (Refines.refl _).bind fun b => ?_
  dsimp only
  split
  · split
    · exact (refines_whole h _).bind fun _ => .refl _
    · exact hleft.bind fun _ => .refl _
  · split
    · exact .refl _
    · exact hleft.bind fun _ => .refl _
  · split
    · exact .refl _
    · exact hleft.bind fun _ => .refl _
  · exact hleft.bind fun _ => (h _ _ _).bind fun _ => .refl _

omit [SpecialFunctions] in
theorem refines_branch :
    Refines excused (branch .total go stack target nodes pos) (branch .total go' stack' target nodes pos) :=
  (Refines.refl _).bind fun _ => (Refines.refl _).bind fun _ => (Refines.refl _).bind fun _ =>
    (h _ _ _).bind fun _ => (h _ _ _).bind fun _ => .refl _

omit h in
theorem refines_sumTerms {diff diff' : Expression → Attempt Expression}
    (h : ∀ e, Refines excused (diff e) (diff' e)) (terms : List Expression) :
    ∀ acc, Refines excused (sumTerms diff terms acc) (sumTerms diff' terms acc) := by
  induction terms with
  | nil => exact fun _ => .refl _
  | cons e terms ih => exact fun _ => (h e).bind fun _ => ih _

omit h in
theorem refines_sumProducts {diff diff' : Expression → Attempt Expression}
    (h : ∀ e, Refines excused (diff e) (diff' e)) (factors : List Expression) :
    ∀ before acc, Refines excused (sumProducts diff before factors acc)
      (sumProducts diff' before factors acc) := by
  induction factors with
  | nil => exact fun _ _ => .refl _
  | cons e factors ih => exact fun _ _ => (h e).bind fun _ => ih _ _

omit h in
theorem refines_rangeWithin (hlimit : limit ≤ limit') (long : ∀ n l, excused (.unrollLimit n l))
    (lower upper : Expression) :
    Refines excused (ofExcept (rangeWithin ⟨env, limit⟩ lower upper))
      (ofExcept (rangeWithin ⟨env, limit'⟩ lower upper)) := by
  unfold rangeWithin
  dsimp only
  split
  · exact .refl _
  · split
    · exact .refl _
    · split
      · exact refines_throw (long _ _) _
      · rename_i range _
        split
        · exact refines_throw (long _ _) _
        · rename_i hshort
          have hshort' : ¬range.remaining > limit' := fun hlong =>
            hshort (UInt64.lt_of_le_of_lt hlimit hlong)
          rw [if_neg hshort']
          exact .refl _

theorem refines_loop (hlimit : limit ≤ limit') (long : ∀ n l, excused (.unrollLimit n l))
    {kind : Fold} : Refines excused (loop .total ⟨env, limit⟩ go stack target nodes pos kind)
      (loop .total ⟨env, limit'⟩ go' stack' target nodes pos kind) := by
  unfold loop
  split
  · refine (Refines.refl _).bind fun _ => (Refines.refl _).bind fun _ => (Refines.refl _).bind fun _ =>
      (Refines.refl _).bind fun _ => (refines_rangeWithin hlimit long _ _).bind fun _ =>
        (Refines.refl _).bind fun _ => ?_
    dsimp only
    split
    · exact (refines_sumTerms (refines_whole h) _ _).bind fun _ => .refl _
    · exact (refines_sumProducts (refines_whole h) _ _ _).bind fun _ => .refl _
  · exact .refl _

omit [SpecialFunctions] in
theorem refines_arguments (count : Nat) :
    ∀ pos, Refines excused (arguments .total go stack target nodes count pos)
      (arguments .total go' stack' target nodes count pos) := by
  induction count with
  | zero => exact fun _ => .refl _
  | succ count ih =>
    exact fun _ => (Refines.refl _).bind fun _ => (h _ _ _).bind fun _ => (ih _).bind fun _ => .refl _

theorem refines_addPartials {body : Expression} {args : List Expression}
    (derivatives : List Expression) :
    ∀ index acc, Refines excused (addPartials go stack body args index derivatives acc)
      (addPartials go' stack' body args index derivatives acc) := by
  induction derivatives with
  | nil => exact fun _ _ => .refl _
  | cons d derivatives ih =>
    intro index acc
    rw [addPartials, addPartials]
    split
    · exact ih _ _
    · exact (refines_whole h _).bind fun _ => ih _ _

theorem refines_chainRule {body : Expression} {args derivatives : List Expression} :
    Refines excused (chainRule go stack target body args derivatives)
      (chainRule go' stack' target body args derivatives) := by
  have hpartials : ∀ e, Refines excused ((pure e : Attempt Expression) >>= fun direct =>
      addPartials go stack body args 0 derivatives direct) ((pure e : Attempt Expression) >>=
        fun direct => addPartials go' stack' body args 0 derivatives direct) :=
    fun e => (Refines.refl _).bind fun _ => refines_addPartials h _ _ _
  unfold chainRule
  cases target with
  | arg i => exact hpartials _
  | var a => exact (refines_whole h _).bind fun _ => hpartials _

end

/-- No function is under way in the other differentiation alone, and to be refused for one that is under
way in this one alone is excused. -/
structure UnderWay (excused : DerivativeError → Prop) (stack stack' : List FunctionId) : Prop where
  kept : ∀ f ∈ stack', f ∈ stack
  refused : ∀ f ∈ stack, f ∉ stack' → excused (.recursiveCall f)

theorem UnderWay.refl (stack : List FunctionId) : UnderWay excused stack stack :=
  ⟨fun _ hf => hf, fun _ hf hf' => absurd hf hf'⟩

theorem UnderWay.enter (h : UnderWay excused stack stack') (f : FunctionId) :
    UnderWay excused (f :: stack) (f :: stack') where
  kept g hg := by
    rw [List.mem_cons] at hg ⊢
    exact hg.imp_right (h.kept g)
  refused g hg hg' := by
    rw [List.mem_cons, not_or] at hg'
    exact h.refused g ((List.mem_cons.1 hg).resolve_left hg'.1) hg'.2

variable [SpecialFunctions]

theorem refines_call {f : FunctionId} {argc : UInt32} (fewer : UnderWay excused stack stack')
    (h : ∀ stack stack', UnderWay excused stack stack' → Follows excused go go' stack stack') :
    Refines excused (call .total ⟨env, limit⟩ go stack target nodes pos f argc)
      (call .total ⟨env, limit'⟩ go' stack' target nodes pos f argc) := by
  unfold call
  dsimp only
  split
  · exact .refl _
  · split
    · exact .refl _
    · by_cases hf : f ∈ stack
      · rw [if_pos (by simpa using hf)]
        by_cases hf' : f ∈ stack'
        · rw [if_pos (by simpa using hf')]
          exact .refl _
        · exact refines_throw (fewer.refused f hf hf') _
      · have hf' : f ∉ stack' := fun hf' => hf (fewer.kept f hf')
        rw [if_neg (by simpa using hf), if_neg (by simpa using hf')]
        exact (refines_arguments (h _ _ fewer) _ _).bind fun _ =>
          (refines_chainRule (h _ _ (fewer.enter f))).bind fun _ => .refl _

/-- With more depth, a higher limit and fewer functions under way a descent has the outcomes that it
had, where it was not refused for the limit or for a function under way. -/
theorem follows_descend (hlimit : limit ≤ limit') (long : ∀ n l, excused (.unrollLimit n l))
    {depth more : Nat} (hd : depth ≤ more) : ∀ stack stack', UnderWay excused stack stack' →
      Follows excused (descend ⟨env, limit⟩ depth) (descend ⟨env, limit'⟩ more) stack stack' := by
  induction depth generalizing more with
  | zero => intro _ _ _ target nodes pos r h; cases h
  | succ depth ih =>
    obtain ⟨more, rfl⟩ : ∃ k, more = k + 1 := ⟨more - 1, by omega⟩
    have ih := fun stack stack' => ih (Nat.le_of_succ_le_succ hd) stack stack'
    intro stack stack' fewer target nodes pos
    have h := ih stack stack' fewer
    rw [descend, descendBy, descendBy]
    split
    · exact .refl _
    · exact .refl _
    · exact .refl _
    · exact .refl _
    · exact .refl _
    · exact .refl _
    · exact refines_call fewer ih
    · exact refines_branch h
    · exact refines_loop h hlimit long
    · split
      · exact .refl _
      · split
        · exact .refl _
        · exact refines_unary h
    · split
      · exact .refl _
      · exact refines_binary h

theorem refines_differentiateWithin (hlimit : limit ≤ limit')
    (long : ∀ n l, excused (.unrollLimit n l)) {depth more : Nat} (hd : depth ≤ more)
    (e : Expression) (target : Target) :
    Refines excused (differentiateWithin ⟨env, limit⟩ depth e target)
      (differentiateWithin ⟨env, limit'⟩ more e target) :=
  (Refines.refl _).bind fun _ => refines_whole (follows_descend hlimit long hd [] [] (.refl _)) e

end

/-- **A higher limit for loops changes no outcome but its own refusals.** A derivative within a limit is
the derivative within every higher one, and an error that is not about the limit stays the same error;
more depth changes neither. -/
theorem differentiateWithin_raised_limit [SpecialFunctions] (env : Environment)
    (limit limit' : UInt64) (raised : limit ≤ limit') (e : Expression) (target : Target)
    (depth more : Nat) (deeper : depth ≤ more) :
    (∀ d, (differentiateWithin ⟨env, limit⟩ depth e target).run = some (.ok d) →
      (differentiateWithin ⟨env, limit'⟩ more e target).run = some (.ok d)) ∧
    ∀ error, (∀ iterations bound, error ≠ .unrollLimit iterations bound) →
      (differentiateWithin ⟨env, limit⟩ depth e target).run = some (.error error) →
        (differentiateWithin ⟨env, limit'⟩ more e target).run = some (.error error) := by
  have hrefines : Refines (fun error => ∃ iterations bound, error = .unrollLimit iterations bound)
      (differentiateWithin ⟨env, limit⟩ depth e target)
      (differentiateWithin ⟨env, limit'⟩ more e target) :=
    refines_differentiateWithin raised (fun n l => ⟨n, l, rfl⟩) deeper e target
  constructor
  · intro d hd
    obtain ⟨error, herror, -⟩ | h := hrefines _ hd
    · cases herror
    · exact h
  · intro error other herror
    obtain ⟨error', heq, n, l, hlong⟩ | h := hrefines _ herror
    · cases heq
      exact absurd hlong (other n l)
    · exact h

open Series

def threeFactors : Term :=
  .loop .product ⟨0⟩ (.const 1.0) (.const 3.0) (.binary .add (.ref ⟨1⟩) (.ref ⟨0⟩))

def threeRemainders : Term :=
  .loop .sum ⟨0⟩ (.const 1.0) (.const 3.0) (.binary .mod (.ref ⟨0⟩) (.ref ⟨1⟩))

/-- By `$1`: a limit of two refuses the product for its length, a limit of three has the derivative that
every higher limit has; the sum is refused for the modulus, whatever the limit beyond two. -/
theorem differentiateWithin_raised_limit_threeFactors :
    (differentiateWithin ⟨.empty, 2⟩ 5 threeFactors.encode (.var ⟨1⟩)).run
      = some (.error (.unrollLimit 3 2)) ∧
    (∃ d, (differentiateWithin ⟨.empty, 3⟩ 5 threeFactors.encode (.var ⟨1⟩)).run = some (.ok d) ∧
      (differentiateWithin ⟨.empty, 4096⟩ 9 threeFactors.encode (.var ⟨1⟩)).run = some (.ok d)) ∧
    (differentiateWithin ⟨.empty, 4096⟩ 9 threeRemainders.encode (.var ⟨1⟩)).run
      = some (.error .dependentModulus) := by
  have raised : (3 : UInt64) ≤ 4096 := by decide
  refine ⟨by decide +kernel, ?_, ?_⟩
  · obtain ⟨d, hd⟩ : ∃ d, (differentiateWithin ⟨.empty, 3⟩ 5 threeFactors.encode (.var ⟨1⟩)).run
        = some (.ok d) := exists_of_isOk (by decide +kernel)
    exact ⟨d, hd, (differentiateWithin_raised_limit .empty 3 4096 raised _ _ 5 9 (by decide)).1 d hd⟩
  · exact (differentiateWithin_raised_limit .empty 3 4096 raised _ _ 5 9 (by decide)).2 _
      (fun _ _ => by simp) (by decide +kernel)

end Derivation

end PrefixCalculus
