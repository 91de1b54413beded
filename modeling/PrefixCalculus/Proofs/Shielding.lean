import PrefixCalculus.Proofs.DerivedTerms
set_option autoImplicit false

/-!
Terms in which a variable stands only in loops over it. A body that is written out has numbers in
place of the free occurrences of the loop variable, and bodies in place of the calls that read it;
loops over the same variable inside stay as they are, and the chain rule copies them without a
change. Main statement: terms without a free occurrence and without a call that reads the variable
are kept by differentiation.
-/

namespace PrefixCalculus

namespace Term

mutual

/-- Every occurrence of the variable is in a loop over it, and something holds of each of those
loops. -/
def Shields (v : Address) (p : Term → Prop) : Term → Prop
  | literal _ | arg _ => True
  | ref a => a ≠ v
  | unary _ t => Shields v p t
  | binary _ a b => Shields v p a ∧ Shields v p b
  | branch c a b => Shields v p c ∧ Shields v p a ∧ Shields v p b
  | loop kind a lower upper body =>
    Shields v p lower ∧ Shields v p upper ∧
      if a = v then p (loop kind a lower upper body) else Shields v p body
  | call _ args => ShieldsAll v p args

def ShieldsAll (v : Address) (p : Term → Prop) : List Term → Prop
  | [] => True
  | t :: ts => Shields v p t ∧ ShieldsAll v p ts

end

section

variable {v w : Address} {p q : Term → Prop}

theorem shieldsAll_iff (ts : List Term) : ShieldsAll v p ts ↔ ∀ t ∈ ts, Shields v p t := by
  induction ts with
  | nil => simp [ShieldsAll]
  | cons t ts ih => simp [ShieldsAll, ih]

theorem Shields.of_fits (hq : ∀ t, p t → t.Fits → q t) (t : Term) :
    Shields v p t → t.Fits → Shields v q t := by
  induction t using Term.induction with
  | literal | ref | arg => exact fun h _ => h
  | unary op t ih => exact fun h fits => ih h fits
  | binary op a b iha ihb => exact fun h fits => ⟨iha h.1 fits.1, ihb h.2 fits.2⟩
  | branch c a b ihc iha ihb =>
    exact fun h fits => ⟨ihc h.1 fits.1, iha h.2.1 fits.2.1, ihb h.2.2 fits.2.2.1⟩
  | loop kind a lower upper body ihl ihu ihb =>
    intro h fits
    refine ⟨ihl h.1 fits.1, ihu h.2.1 fits.2.1, ?_⟩
    have hbody := h.2.2
    split at hbody
    · rename_i ha
      rw [if_pos ha]
      exact hq _ hbody fits
    · rename_i ha
      rw [if_neg ha]
      exact ihb hbody fits.2.2.1
  | call f args ih =>
    intro h fits
    have hargs := (shieldsAll_iff args).1 h
    have fargs := (fitsAll_iff args).1 fits.1
    exact (shieldsAll_iff args).2 fun t ht => ih t ht (hargs t ht) (fargs t ht)

theorem Shields.imp (hq : ∀ t, p t → q t) (t : Term) : Shields v p t → Shields v q t := by
  induction t using Term.induction with
  | literal | ref | arg => exact fun h => h
  | unary op t ih => exact fun h => ih h
  | binary op a b iha ihb => exact fun h => ⟨iha h.1, ihb h.2⟩
  | branch c a b ihc iha ihb => exact fun h => ⟨ihc h.1, iha h.2.1, ihb h.2.2⟩
  | loop kind a lower upper body ihl ihu ihb =>
    intro h
    refine ⟨ihl h.1, ihu h.2.1, ?_⟩
    have hbody := h.2.2
    split at hbody
    · rename_i ha
      rw [if_pos ha]
      exact hq _ hbody
    · rename_i ha
      rw [if_neg ha]
      exact ihb hbody
  | call f args ih =>
    intro h
    have hargs := (shieldsAll_iff args).1 h
    exact (shieldsAll_iff args).2 fun t ht => ih t ht (hargs t ht)

theorem shields_of_not_mem (t : Term) : Node.ref v ∉ t.encode.nodes → Shields v p t := by
  induction t using Term.induction with
  | literal | arg => exact fun _ => trivial
  | ref a =>
    rintro h rfl
    exact h (by simp [encode, Expression.var, Expression.leaf])
  | unary op t ih =>
    intro h
    simp only [nodes_unary, Array.mem_append, not_or] at h
    exact ih h.2
  | binary op a b iha ihb =>
    intro h
    simp only [nodes_binary, Array.mem_append, not_or] at h
    exact ⟨iha h.1.2, ihb h.2⟩
  | branch c a b ihc iha ihb =>
    intro h
    simp only [nodes_branch, Expression.spanned, Array.mem_append, not_or] at h
    exact ⟨ihc h.1.1.2, iha h.1.2.1.2, ihb h.2.1.2⟩
  | loop kind a lower upper body ihl ihu ihb =>
    intro h
    simp only [nodes_loop, Expression.spanned, Array.mem_append, not_or] at h
    refine ⟨ihl h.1.1.2, ihu h.1.2, ?_⟩
    have ha : a ≠ v := by
      rintro rfl
      exact h.1.1.1.2 (by simp)
    rw [if_neg ha]
    exact ihb h.2.1.2
  | call f args ih =>
    intro h
    rw [nodes_call, Array.mem_append, not_or] at h
    exact (shieldsAll_iff args).2 fun t ht => ih t ht fun hmem => h.2 (mem_concat_encodeAll.2 ⟨t, ht, hmem⟩)

/-! Replacing -/

theorem shields_replace_self (x : Float) (t : Term) :
    Shields v (fun _ => True) (replace v (const x) t) := by
  induction t using Term.induction with
  | literal | arg => trivial
  | ref a =>
    rw [replace]
    split
    · trivial
    · rename_i ha
      exact ha
  | unary op t ih => exact ih
  | binary op a b iha ihb => exact ⟨iha, ihb⟩
  | branch c a b ihc iha ihb => exact ⟨ihc, iha, ihb⟩
  | loop kind a lower upper body ihl ihu ihb =>
    refine ⟨ihl, ihu, ?_⟩
    split
    · trivial
    · exact ihb
  | call f args ih =>
    rw [replace, replaceAll_eq_map]
    exact (shieldsAll_iff _).2 (by simpa using ih)

theorem Shields.replace {P : Prop} (x : Float) (t : Term) :
    Shields v (fun _ => P) t → Shields v (fun _ => P) (.replace w (const x) t) := by
  induction t using Term.induction with
  | literal | arg => exact fun _ => trivial
  | ref a =>
    intro h
    rw [Term.replace]
    split
    · trivial
    · exact h
  | unary op t ih => exact fun h => ih h
  | binary op a b iha ihb => exact fun h => ⟨iha h.1, ihb h.2⟩
  | branch c a b ihc iha ihb => exact fun h => ⟨ihc h.1, iha h.2.1, ihb h.2.2⟩
  | loop kind a lower upper body ihl ihu ihb =>
    intro h
    refine ⟨ihl h.1, ihu h.2.1, ?_⟩
    have hbody := h.2.2
    split at hbody
    · rename_i ha
      rwa [if_pos ha]
    · rename_i ha
      rw [if_neg ha]
      split
      · exact hbody
      · exact ihb hbody
  | call f args ih =>
    intro h
    have hargs := (shieldsAll_iff args).1 h
    rw [Term.replace, replaceAll_eq_map]
    refine (shieldsAll_iff _).2 fun u hu => ?_
    obtain ⟨t, ht, rfl⟩ := List.mem_map.1 hu
    exact ih t ht (hargs t ht)

theorem size_replace (x : Float) (t : Term) : (replace w (const x) t).size = t.size := by
  induction t using Term.induction with
  | literal | arg => rfl
  | ref a =>
    rw [replace]
    split <;> rfl
  | unary op t ih => simp only [replace, size, ih]
  | binary op a b iha ihb => simp only [replace, size, iha, ihb]
  | branch c a b ihc iha ihb => simp only [replace, size, ihc, iha, ihb]
  | loop kind a lower upper body ihl ihu ihb =>
    simp only [replace, size, ihl, ihu]
    split
    · rfl
    · rw [ihb]
  | call f args ih =>
    rw [replace, replaceAll_eq_map, size, size]
    have hsize : ∀ ts : List Term, (∀ t ∈ ts, (replace w (const x) t).size = t.size) →
        sizeAll (ts.map (replace w (const x))) = sizeAll ts := by
      intro ts hts
      induction ts with
      | nil => rfl
      | cons t ts ih =>
        obtain ⟨ht, hts⟩ := List.forall_mem_cons.1 hts
        rw [List.map_cons, sizeAll, sizeAll, ht, ih hts]
    rw [hsize args ih]

theorem Fits.replace (x : Float) (t : Term) : t.Fits → (Term.replace w (const x) t).Fits := by
  induction t using Term.induction with
  | literal | arg => exact fun _ => trivial
  | ref a =>
    intro _
    rw [Term.replace]
    split <;> trivial
  | unary op t ih => exact fun h => ih h
  | binary op a b iha ihb => exact fun h => ⟨iha h.1, ihb h.2⟩
  | branch c a b ihc iha ihb =>
    intro h
    simp only [Term.replace, Fits, size_replace]
    exact ⟨ihc h.1, iha h.2.1, ihb h.2.2.1, h.2.2.2⟩
  | loop kind a lower upper body ihl ihu ihb =>
    intro h
    simp only [Term.replace, Fits]
    refine ⟨ihl h.1, ihu h.2.1, ?_⟩
    split
    · exact h.2.2
    · rw [size_replace]
      exact ⟨ihb h.2.2.1, h.2.2.2⟩
  | call f args ih =>
    intro h
    have hargs := (fitsAll_iff args).1 h.1
    rw [Term.replace, replaceAll_eq_map]
    refine ⟨(fitsAll_iff _).2 fun u hu => ?_, by simpa using h.2⟩
    obtain ⟨t, ht, rfl⟩ := List.mem_map.1 hu
    exact ih t ht (hargs t ht)

theorem Shields.instantiate {args : List Term} (hargs : ∀ t ∈ args, Shields v p t) (b : Term) :
    Shields v (fun _ => False) b → Shields v p (b.instantiate args) := by
  induction b using Term.induction with
  | literal => exact fun _ => trivial
  | ref a => exact fun h => h
  | arg i =>
    intro _
    rw [Term.instantiate]
    cases hi : args[i.toNat]? with
    | none => trivial
    | some t => exact hargs t (List.mem_of_getElem? hi)
  | unary op t ih => exact fun h => ih h
  | binary op a b iha ihb => exact fun h => ⟨iha h.1, ihb h.2⟩
  | branch c a b ihc iha ihb => exact fun h => ⟨ihc h.1, iha h.2.1, ihb h.2.2⟩
  | loop kind a lower upper body ihl ihu ihb =>
    intro h
    refine ⟨ihl h.1, ihu h.2.1, ?_⟩
    have hbody := h.2.2
    split at hbody
    · exact hbody.elim
    · rename_i ha
      rw [if_neg ha]
      exact ihb hbody
  | call f ts ih =>
    intro h
    have hts := (shieldsAll_iff ts).1 h
    rw [Term.instantiate, instantiateAll_eq_map]
    refine (shieldsAll_iff _).2 fun u hu => ?_
    obtain ⟨t, ht, rfl⟩ := List.mem_map.1 hu
    exact ih t ht (hts t ht)

theorem Shields.inlineCalls {P : Prop} {body? : FunctionId → Nat → Option Term} (t : Term)
    (hbody : ∀ c ∈ t.calls, ∀ b, body? c.1 c.2 = some b → Shields v (fun _ => False) b) :
    Shields v (fun _ => P) t → Shields v (fun _ => P) (t.inlineCalls body?) := by
  induction t using Term.induction with
  | literal | arg => exact fun _ => trivial
  | ref a => exact fun h => h
  | unary op t ih => exact fun h => ih hbody h
  | binary op a b iha ihb =>
    simp only [calls, List.forall_mem_append] at hbody
    exact fun h => ⟨iha hbody.1 h.1, ihb hbody.2 h.2⟩
  | branch c a b ihc iha ihb =>
    simp only [calls, List.forall_mem_append] at hbody
    exact fun h => ⟨ihc hbody.1.1 h.1, iha hbody.1.2 h.2.1, ihb hbody.2 h.2.2⟩
  | loop kind a lower upper body ihl ihu ihb =>
    simp only [calls, List.forall_mem_append] at hbody
    intro h
    refine ⟨ihl hbody.1.1 h.1, ihu hbody.1.2 h.2.1, ?_⟩
    have hloop := h.2.2
    split at hloop
    · rename_i ha
      rwa [if_pos ha]
    · rename_i ha
      rw [if_neg ha]
      exact ihb hbody.2 hloop
  | call f args ih =>
    intro h
    have hcall := hbody (f, args.length) (by simp [calls])
    have hargs : ∀ u ∈ inlineCallsAll body? args, Shields v (fun _ => P) u := by
      intro u hu
      rw [inlineCallsAll_eq_map] at hu
      obtain ⟨t, ht, rfl⟩ := List.mem_map.1 hu
      have hsub : ∀ c ∈ t.calls, c ∈ (call f args).calls := fun c hc =>
        List.mem_append_left _ (mem_callsAll.2 ⟨t, ht, hc⟩)
      exact ih t ht (fun c hc => hbody c (hsub c hc)) ((shieldsAll_iff args).1 h t ht)
    rw [Term.inlineCalls]
    split
    · rename_i b hb
      exact Shields.instantiate hargs b (hcall b hb)
    · exact (shieldsAll_iff _).2 hargs

end

/-! Calls that do not read the variable -/

def SparesVar (env : Environment) (v : Address) (c : FunctionId × Nat) : Prop :=
  c.2 < UInt32.size ∧ readerTerm? env v c.1 c.2 = none

/-- Nothing in the term reads the variable from outside, and something holds of the loops over it. -/
structure Detached (env : Environment) (v : Address) (p : Term → Prop) (t : Term) : Prop where
  calls : ∀ c ∈ t.calls, SparesVar env v c
  shields : Shields v p t

section

variable {env : Environment} {v : Address} {p : Term → Prop}

theorem buildable_detached : Buildable (Detached env v p) where
  literal _ := ⟨fun _ hc => (List.not_mem_nil hc).elim, trivial⟩
  unary := ⟨fun h => ⟨h.calls, h.shields⟩, fun h => ⟨h.calls, h.shields⟩⟩
  binary := by
    refine ⟨fun h => ?_, fun h => ⟨List.forall_mem_append.2 ⟨h.1.calls, h.2.calls⟩, h.1.shields,
      h.2.shields⟩⟩
    obtain ⟨ha, hb⟩ := List.forall_mem_append.1 h.calls
    exact ⟨⟨ha, h.shields.1⟩, hb, h.shields.2⟩
  branch := by
    refine ⟨fun h => ?_, fun h => ⟨List.forall_mem_append.2 ⟨List.forall_mem_append.2 ⟨h.1.calls,
      h.2.1.calls⟩, h.2.2.calls⟩, h.1.shields, h.2.1.shields, h.2.2.shields⟩⟩
    obtain ⟨hca, hb⟩ := List.forall_mem_append.1 h.calls
    obtain ⟨hc, ha⟩ := List.forall_mem_append.1 hca
    exact ⟨⟨hc, h.shields.1⟩, ⟨ha, h.shields.2.1⟩, hb, h.shields.2.2⟩

theorem Detached.argument {f : FunctionId} {args : List Term} (h : Detached env v p (call f args)) :
    ∀ t ∈ args, Detached env v p t := fun t ht =>
  ⟨fun c hc => h.calls c (List.mem_append_left _ (mem_callsAll.2 ⟨t, ht, hc⟩)),
    (shieldsAll_iff args).1 h.shields t ht⟩

theorem Detached.of_loop {kind : Fold} {a : Address} {lower upper body : Term}
    (h : Detached env v p (loop kind a lower upper body)) :
    Detached env v p lower ∧ Detached env v p upper ∧ (a ≠ v → Detached env v p body) := by
  obtain ⟨hbounds, hbody⟩ := List.forall_mem_append.1 h.calls
  obtain ⟨hlower, hupper⟩ := List.forall_mem_append.1 hbounds
  refine ⟨⟨hlower, h.shields.1⟩, ⟨hupper, h.shields.2.1⟩, fun ha => ⟨hbody, ?_⟩⟩
  have hshields := h.shields.2.2
  rwa [if_neg ha] at hshields

end

section

variable {env : Environment} (valid : env.BodiesValid) {v w : Address} {p : Term → Prop}
include valid

theorem SparesVar.not_reads {c : FunctionId × Nat} {function : Function} (h : SparesVar env v c)
    (found : env.function? c.1 = some function) (hargc : function.argc.toNat = c.2) :
    ¬PrefixCalculus.Reads env function.body.nodes v := by
  rw [← Expression.dependsOnVar_iff]
  exact (readerTerm?_eq_none_iff valid found hargc).1 h.2

/-- What does not read the variable calls nothing that does, and does not loop over it. -/
theorem detached_of_not_reads {b : Term} (fits : b.Fits)
    (h : ¬PrefixCalculus.Reads env b.encode.nodes v) :
    Detached env v p b where
  shields := shields_of_not_mem b fun hmem => h (.inl hmem)
  calls c hc := by
    refine ⟨counted_of_fits b fits c hc, ?_⟩
    cases hreader : readerTerm? env v c.1 c.2 with
    | none => rfl
    | some t =>
      obtain ⟨function, found, -, -, -, hdepends⟩ := readerTerm?_eq_some valid hreader
      have hreads := (Expression.dependsOnVar_iff _ _ _).1 hdepends
      exact absurd (.of_reaches (.direct (calls_of_mem_calls b hc)) found hreads) h

theorem SparesVar.detached_body {c : FunctionId × Nat} {function : Function} {b : Term}
    (h : SparesVar env v c) (found : env.function? c.1 = some function)
    (hargc : function.argc.toNat = c.2) (flat : function.body = b.encode) (fits : b.Fits) :
    Detached env v p b := by
  have hreads := h.not_reads valid found hargc
  rw [flat] at hreads
  exact detached_of_not_reads valid fits hreads

theorem inherited_sparesVar : Inherited env (SparesVar env v) := by
  intro c function b h found hargc flat fits
  exact (h.detached_body (p := fun _ => True) valid found hargc flat fits).calls

theorem Expands.shields {P : Prop} {t t' : Term} (h : Expands env w t t')
    (hcalls : ∀ c ∈ t.calls, SparesVar env v c) (ht : Shields v (fun _ => P) t) :
    Shields v (fun _ => P) t' := by
  induction h with
  | done => exact ht
  | pass _ _ ih =>
    refine ih (forall_calls_inlineCalls valid (inherited_sparesVar valid) hcalls)
      (.inlineCalls _ (fun c hc b hb => ?_) ht)
    obtain ⟨function, found, hargc, flat, fits, -⟩ := readerTerm?_eq_some valid hb
    exact ((hcalls c hc).detached_body valid found hargc flat fits).shields

theorem Expands.detached {t t' : Term} (h : Expands env v t t') (counted : t.Counted) (fits : t'.Fits)
    (x : Float) : Detached env v Fits (replace v (const x) t') where
  calls := by
    rw [calls_replace rfl]
    exact fun c hc => ⟨h.counted valid counted c hc, h.readerFree c hc⟩
  shields := (shields_replace_self x t').of_fits (fun _ _ fits => fits) _ (fits.replace x t')

theorem Detached.shields_unrolled {P : Prop} (hp : ∀ t, p t → P) (hfits : ∀ t, P → t.Fits → p t)
    {kind : Fold} {lower upper body t : Term} (h : Detached env v p (loop kind w lower upper body))
    (hexpands : Expands env w body t) (fits : t.Fits) (x : Float) :
    Shields v p (replace w (const x) t) := by
  suffices Shields v (fun _ => P) (replace w (const x) t) from
    this.of_fits hfits _ (fits.replace x t)
  have hbody := h.shields.2.2
  split at hbody
  · rename_i hw
    subst hw
    exact (shields_replace_self x t).imp (fun _ _ => hp _ hbody) _
  · have hcalls : ∀ c ∈ body.calls, SparesVar env v c := fun c hc =>
      h.calls c (by simp [Term.calls, hc])
    exact (hexpands.shields valid hcalls (hbody.imp hp _)).replace x t

end

end Term

namespace Derivation

variable [SpecialFunctions]

/-- Differentiation keeps terms that do not read a variable from outside. -/
theorem kept_detached {ctx : Derivation} (valid : ctx.env.BodiesValid) (v : Address)
    {p : Term → Prop} {P : Prop} (hp : ∀ t, p t → P) (hfits : ∀ t, P → t.Fits → p t) :
    Kept ctx (fun _ => True) True (Term.Detached ctx.env v fun _ => False)
      (Term.Detached ctx.env v p) := by
  have kept : Kept ctx (fun _ => True) True (fun t => ∀ c ∈ t.calls, Term.SparesVar ctx.env v c)
      (fun t => ∀ c ∈ t.calls, Term.SparesVar ctx.env v c) :=
    kept_calls valid (Term.inherited_sparesVar valid) (fun _ h => h.1)
      fun _ _ _ _ _ _ _ _ _ _ _ => .inl trivial
  exact {
    toBuildable := Term.buildable_detached
    counted := fun h => kept.counted h.calls
    argument := fun h => h.argument
    unrolled := fun h hexpands fits x =>
      ⟨kept.unrolled h.calls hexpands fits x, h.shields_unrolled valid hp hfits hexpands fits x⟩
    body := fun {f args _ _} h found hargc flat fits =>
      (h.calls (f, args.length) (by simp [Term.calls])).detached_body valid found hargc flat fits
    instantiated := fun hb fits hargs =>
      ⟨kept.instantiated hb.calls fits fun t ht => (hargs t ht).calls,
        hb.shields.instantiate fun t ht => (hargs t ht).shields⟩
    readable := fun _ _ _ _ _ _ _ _ _ => .inl trivial }

end Derivation

end PrefixCalculus
