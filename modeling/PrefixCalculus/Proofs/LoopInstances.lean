import PrefixCalculus.Numeric.Series
import PrefixCalculus.Proofs.Agreement
import PrefixCalculus.Proofs.LoopVariables
import PrefixCalculus.Proofs.Shielding
import PrefixCalculus.Proofs.VariableReplacement
set_option autoImplicit false

/-!
A loop evaluated and a loop written out. Evaluation sets the variable, for everything that it comes to
in the body; writing out puts a number in place of the variable where the body itself has it free. The
two differ in what called functions see of the variable only. Main statement: if no called function
depends on the variable, a body has the same values with the variable set to a number and with the
number in its place, so a loop joins the values of its written out instances.
-/

namespace PrefixCalculus

theorem joins_iff_foldl {kind : Fold} {value : Int64 → Float → Prop} :
    ∀ {is : List Int64} {acc v : Float}, Joins kind value is acc v ↔
      ∃ xs, List.Forall₂ value is xs ∧ v = xs.foldl kind.join acc := by
  intro is
  induction is with
  | nil =>
    intro acc v
    simp [Joins]
  | cons i is ih =>
    intro acc v
    simp only [Joins, ih, List.forall₂_cons_left_iff]
    constructor
    · rintro ⟨x, hx, xs, hxs, hv⟩
      exact ⟨x :: xs, ⟨x, xs, hx, hxs, rfl⟩, hv⟩
    · rintro ⟨_, ⟨x, xs, hx, hxs, rfl⟩, hv⟩
      exact ⟨x, hx, xs, hxs, hv⟩

namespace Term

/-- Whatever the term or a function that it calls reads of an environment is at one of the
addresses. -/
structure ReadsWithin (env : Environment) (p : Address → Prop) (t : Term) : Prop where
  free : ∀ a, t.hasFree a = true → p a
  called : ∀ c ∈ t.calls, ∀ function, env.function? c.1 = some function →
    ∀ a, PrefixCalculus.Reads env function.body.nodes a → p a

section

variable {env first second : Environment} {p : Address → Prop} {frame : Frame}

theorem ReadsWithin.part {s t : Term} (h : ReadsWithin env p t)
    (hfree : ∀ a, s.hasFree a = true → t.hasFree a = true) (hcalls : ∀ c ∈ s.calls, c ∈ t.calls) :
    ReadsWithin env p s where
  free a ha := h.free a (hfree a ha)
  called c hc := h.called c (hcalls c hc)

theorem ReadsWithin.of_binary {op : BinaryOp} {a b : Term} (h : ReadsWithin env p (binary op a b)) :
    ReadsWithin env p a ∧ ReadsWithin env p b :=
  ⟨h.part (fun _ ha => by simp [hasFree, ha]) fun _ hc => by simp [calls, hc],
    h.part (fun _ hb => by simp [hasFree, hb]) fun _ hc => by simp [calls, hc]⟩

theorem ReadsWithin.of_branch {c a b : Term} (h : ReadsWithin env p (branch c a b)) :
    ReadsWithin env p c ∧ ReadsWithin env p a ∧ ReadsWithin env p b :=
  ⟨h.part (fun _ hc => by simp [hasFree, hc]) fun _ hc => by simp [calls, hc],
    h.part (fun _ ha => by simp [hasFree, ha]) fun _ hc => by simp [calls, hc],
    h.part (fun _ hb => by simp [hasFree, hb]) fun _ hc => by simp [calls, hc]⟩

theorem ReadsWithin.of_loop {kind : Fold} {a : Address} {lower upper body : Term}
    (h : ReadsWithin env p (loop kind a lower upper body)) :
    ReadsWithin env p lower ∧ ReadsWithin env p upper ∧ ReadsWithin env (fun b => p b ∨ b = a) body := by
  refine ⟨h.part (fun _ hl => by simp [hasFree, hl]) fun _ hc => by simp [calls, hc],
    h.part (fun _ hu => by simp [hasFree, hu]) fun _ hc => by simp [calls, hc], ?_, ?_⟩
  · intro b hb
    by_cases hba : b = a
    · exact .inr hba
    · exact .inl (h.free b (by simp [hasFree, hb, Ne.symm hba]))
  · exact fun c hc function found b hb => .inl (h.called c (by simp [calls, hc]) function found b hb)

theorem ReadsWithin.argument {f : FunctionId} {args : List Term} (h : ReadsWithin env p (call f args)) :
    ∀ t ∈ args, ReadsWithin env p t := fun t ht =>
  h.part (fun a ha => by rw [hasFree, anyHasFree_eq_any]; exact List.any_eq_true.2 ⟨t, ht, ha⟩)
    fun _ hc => List.mem_append_left _ (mem_callsAll.2 ⟨t, ht, hc⟩)

variable [SpecialFunctions]

theorem enters_iff_byWalk {f : FunctionId} {values : List Float} {v : Float} :
    Enters f values env v ↔ ∃ depth, Enter.byWalk depth f values env = some v :=
  ⟨fun ⟨_, h⟩ => exists_byWalk_of_callValue _ h,
    fun ⟨depth, h⟩ => ⟨depth + 1, byWalk_le_callValue depth _ _ _ _ h⟩⟩

theorem enters_congr {f : FunctionId} {values : List Float} {v : Float}
    (agree : env.AgreeOn p first second) (reads : ∀ function, env.function? f = some function →
      ∀ a, PrefixCalculus.Reads env function.body.nodes a → p a) :
    Enters f values first v ↔ Enters f values second v := by
  suffices h : ∀ depth, Enter.byWalk depth f values first = Enter.byWalk depth f values second by
    simp only [enters_iff_byWalk, h]
  intro depth
  obtain ⟨hfirst, hsecond⟩ := agree.function? f
  simp only [Enter.byWalk, hfirst, hsecond]
  cases found : env.function? f with
  | none => rfl
  | some function =>
    have halike := walkAt_alike depth (reads function found) values 0
    simp only [halike.map_value agree]

/-- A term has the same values in environments that agree on what it reads. Under a loop they agree on
one more variable. -/
theorem hasValue_congr (t : Term) : ∀ {p : Address → Prop} {first second : Environment} {v : Float},
    env.AgreeOn p first second → ReadsWithin env p t →
      (t.HasValue frame first v ↔ t.HasValue frame second v) := by
  induction t using Term.induction with
  | literal x => exact fun _ _ => by simp only [hasValue_literal]
  | arg i => exact fun _ _ => by simp only [hasValue_arg]
  | ref a =>
    intro p first second v agree within
    rw [hasValue_ref, hasValue_ref, agree.value a (within.free a (by simp [hasFree]))]
  | unary op t ih =>
    intro p first second v agree within
    have ht := within.part (s := t) (fun _ h => h) fun _ h => h
    simp only [hasValue_unary, ih agree ht]
  | binary op a b iha ihb =>
    intro p first second v agree within
    obtain ⟨ha, hb⟩ := within.of_binary
    simp only [hasValue_binary, iha agree ha, ihb agree hb]
  | branch c a b ihc iha ihb =>
    intro p first second v agree within
    obtain ⟨hc, ha, hb⟩ := within.of_branch
    simp only [hasValue_branch, ihc agree hc, iha agree ha, ihb agree hb]
  | loop kind a lower upper body ihl ihu ihb =>
    intro p first second v agree within
    obtain ⟨hl, hu, hb⟩ := within.of_loop
    have hbody : ∀ i x, body.HasValue frame (first.setValue a (ofPosition i)) x ↔
        body.HasValue frame (second.setValue a (ofPosition i)) x :=
      fun i _ => ihb (agree.setValue a (ofPosition i)) hb
    simp only [hasValue_loop, ihl agree hl, ihu agree hu, hbody]
  | call f args ih =>
    intro p first second v agree within
    have henters : ∀ values, Enters f values first v ↔ Enters f values second v := fun _ =>
      enters_congr agree (within.called (f, args.length) (by simp [calls]))
    have hvalues : ∀ values, HaveValues args frame first values ↔ HaveValues args frame second values := by
      intro values
      simpa only [List.map_id] using
        haveValues_map_congr (f := id) fun t ht x => ih t ht agree (within.argument t ht)
    simp only [hasValue_call, henters, hvalues]

end

variable [SpecialFunctions]

def CallsSpare (env : Environment) (v : Address) (t : Term) : Prop :=
  ∀ c ∈ t.calls, ∀ function, env.function? c.1 = some function →
    ¬PrefixCalculus.Reads env function.body.nodes v

theorem hasValue_replace_const {env : Environment} {v : Address} {t : Term} {frame : Frame} {x : Float}
    (inside : v.index.toNat < env.capacity) (spare : CallsSpare env v t) (c : Float) :
    (replace v (const c) t).HasValue frame env x ↔ t.HasValue frame (env.setValue v c) x := by
  have agree : env.AgreeOn (· ≠ v) env (env.setValue v c) :=
    ⟨rfl, rfl, (Environment.capacity_setValue ..).symm,
      fun a ha => (Environment.value_setValue_of_ne _ _ (Ne.symm ha)).symm⟩
  have within : ReadsWithin env (· ≠ v) (replace v (const c) t) := by
    constructor
    · rintro _ hfree rfl
      rw [hasFree_replace, hasFree, Bool.and_false] at hfree
      cases hfree
    · rw [calls_replace rfl]
      rintro k hk function found _ hreads rfl
      exact spare k hk function found hreads
  rw [hasValue_congr _ agree within]
  exact hasValue_replace t (Environment.value_setValue_self env v c inside)

theorem hasValue_loop_instances {env : Environment} {v : Address} {frame : Frame} {kind : Fold}
    {lower upper body : Term} {x : Float} (inside : v.index.toNat < env.capacity)
    (spare : CallsSpare env v body) :
    (loop kind v lower upper body).HasValue frame env x ↔
      ∃ lo, lower.HasValue frame env lo ∧ ∃ hi, upper.HasValue frame env hi ∧
        match LoopRange.ofBounds? lo hi with
        | none => x = nan
        | some range => ∃ values,
            List.Forall₂ (fun i y => (bodyAt v body i).HasValue frame env y) range.toList values ∧
            x = values.foldl kind.join kind.identity := by
  rw [hasValue_loop]
  refine exists_congr fun lo => and_congr_right fun _ => ?_
  refine exists_congr fun hi => and_congr_right fun _ => ?_
  cases LoopRange.ofBounds? lo hi with
  | none => rfl
  | some range => simp only [joins_iff_foldl, bodyAt, hasValue_replace_const inside spare]

end Term

namespace Expression

/-- With a number in place of a variable a valid expression has the values that it has with the
variable set to the number, if no function that it calls depends on the variable. So a loop over the
variable has the value of its instances joined from the left, one for each whole number between the
values of its bounds; it has a value exactly if they have. -/
theorem instances_give_loop [SpecialFunctions] {b : Expression} (hb : b.check = .ok ())
    {env : Environment} {v : Address} (inside : v.index.toNat < env.capacity)
    (spare : ∀ f function, Calls b.nodes f → env.function? f = some function →
      function.body.dependsOn (.var v) env = false)
    (frame : Frame) :
    (∀ c x, (b.replaceVar v (const c)).Gives frame env x ↔ b.Gives frame (env.setValue v c) x) ∧
    ∀ kind lower upper, lower.check = .ok () → upper.check = .ok () →
      (loop kind v lower upper b).check = .ok () → ∀ x,
      ((loop kind v lower upper b).Gives frame env x ↔
        ∃ lo, lower.Gives frame env lo ∧ ∃ hi, upper.Gives frame env hi ∧
          match LoopRange.ofBounds? lo hi with
          | none => x = nan
          | some range => ∃ values,
              List.Forall₂ (fun i y => (b.replaceVar v (const (ofPosition i))).Gives frame env y)
                range.toList values ∧
              x = values.foldl kind.join kind.identity) := by
  obtain ⟨t, fits, rfl⟩ := Term.check_eq_ok_iff.1 hb
  have hspare : Term.CallsSpare env v t := by
    intro c hc function found hreads
    have hdepends := spare c.1 function (Term.calls_of_mem_calls t hc) found
    exact Bool.false_ne_true (hdepends.symm.trans ((dependsOnVar_iff function.body v env).2 hreads))
  have hinstance : ∀ c x, (t.encode.replaceVar v (const c)).Gives frame env x ↔
      (Term.replace v (.const c) t).HasValue frame env x := by
    intro c x
    rw [Term.replaceVar_eq_encodeWith fits, show const c = (Term.const c).encode from rfl,
      Term.encodeWith_ofVar, Term.gives_encode (fits.replace c t)]
  refine ⟨fun c x => ?_, fun kind lower upper hl hu hloop x => ?_⟩
  · rw [hinstance, Term.gives_encode fits, Term.hasValue_replace_const inside hspare]
  · obtain ⟨l, lfits, rfl⟩ := Term.check_eq_ok_iff.1 hl
    obtain ⟨u, ufits, rfl⟩ := Term.check_eq_ok_iff.1 hu
    obtain ⟨whole, wfits, hwhole⟩ := Term.check_eq_ok_iff.1 hloop
    obtain rfl : Term.loop kind v l u t = whole := Term.eq_of_encode_eq wfits hwhole
    rw [hwhole, Term.gives_encode wfits, Term.hasValue_loop_instances inside hspare]
    simp only [hinstance, Term.gives_encode lfits, Term.gives_encode ufits, Term.bodyAt]

open Series

/-- `f(i)` and the sum over the same `i` from `i` to 2 of `i`. -/
def shadowedSum : Expression :=
  binary .add (call ⟨0⟩ [var ⟨0⟩]) (loop .sum ⟨0⟩ (var ⟨0⟩) (const 2.0) (var ⟨0⟩))

/-- Only the call of `f`, which does not depend on `i`, and the bound of the sum are outside the inner
loop. -/
theorem instances_give_shadowedSum :
    shadowedSum.replaceVar ⟨0⟩ (const 3.0) =
      binary .add (call ⟨0⟩ [const 3.0]) (loop .sum ⟨0⟩ (const 3.0) (const 2.0) (var ⟨0⟩)) ∧
    (∀ frame c x, (shadowedSum.replaceVar ⟨0⟩ (const c)).Gives frame scalingStore x ↔
      shadowedSum.Gives frame (scalingStore.setValue ⟨0⟩ c) x) ∧
    ∀ frame x, (loop .product ⟨0⟩ (const 1.0) (const 3.0) shadowedSum).Gives frame scalingStore x ↔
      ∃ lo, (const 1.0).Gives frame scalingStore lo ∧
        ∃ hi, (const 3.0).Gives frame scalingStore hi ∧
          match LoopRange.ofBounds? lo hi with
          | none => x = nan
          | some range => ∃ values,
              List.Forall₂
                (fun i y => (shadowedSum.replaceVar ⟨0⟩ (const (ofPosition i))).Gives frame scalingStore y)
                range.toList values ∧
              x = values.foldl Fold.product.join Fold.product.identity := by
  have accepted : shadowedSum.check = .ok () := rfl
  have spare : ∀ f function, Calls shadowedSum.nodes f → scalingStore.function? f = some function →
      function.body.dependsOn (.var ⟨0⟩) scalingStore = false := by
    intro f function _ found
    obtain ⟨entry, hentry, rfl⟩ := Environment.exists_entry_of_function? found
    simp only [scalingStore, List.mem_toArray, List.mem_singleton] at hentry
    subst hentry
    decide
  have instances := instances_give_loop accepted (by decide) spare
  exact ⟨rfl, fun frame => (instances frame).1, fun frame => (instances frame).2 _ _ _ rfl rfl rfl⟩

end Expression

end PrefixCalculus
