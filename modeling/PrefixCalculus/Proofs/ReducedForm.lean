import PrefixCalculus.Numeric.Series
import PrefixCalculus.Proofs.DoubleArithmetic
import PrefixCalculus.Proofs.SimplifiedForm
import PrefixCalculus.Proofs.UniqueDecoding
set_option autoImplicit false

/-!
The terms that simplification has nothing to do on, said without simplification: no operator has
literals only, no negation is negated, no neutral operand stands beside `-`, `/` or `^`, a chain is
nested to the left and has at most one literal, which is no identity and stands in its place, no branch
is decided and no call is closed. Main statements: simplification ends in a reduced term, and changes
every other; so a second simplification changes nothing.
-/

namespace PrefixCalculus

namespace Term

/-! Chains with their literals merged -/

structure IsLink (op : BinaryOp) (t : Term) : Prop where
  not_literal : t.constant? = none
  not_chain : ∀ a b, t ≠ binary op a b

inductive IsChain (op : BinaryOp) : Term → Prop
  | link {t : Term} (h : IsLink op t) : IsChain op t
  | join {a b : Term} (ha : IsChain op a) (hb : IsLink op b) : IsChain op (binary op a b)

/-- The number is worth an operand of its own in a chain. -/
structure Counts (op : BinaryOp) (x : Float) : Prop where
  not_nan : x.isNaN = false
  not_identity : (x == chainIdentity op) = false
  not_annihilator : (op = .mul && x == 0.0) = false

/-- A chain without literals, or with one that counts, in its place. -/
def IsMerged (op : BinaryOp) (t : Term) : Prop :=
  IsChain op t ∨ ∃ x s, Counts op x ∧ IsChain op s ∧ t = placeLiteral op x s

def IsIrreducible (op : BinaryOp) (a b : Term) : Prop :=
  match op with
  | .add | .mul => IsMerged op (binary op a b)
  | .sub => a.isConst 0.0 = false ∧ b.isConst 0.0 = false
  | .div => b.isConst 1.0 = false
  | .power => b.isConst 1.0 = false ∧ b.isConst 0.0 = false
  | _ => True

inductive Reduced [SpecialFunctions] (env : Environment) : Term → Prop
  | literal (x : Literal) : Reduced env (literal x)
  | ref (a : Address) : Reduced env (ref a)
  | arg (i : UInt32) : Reduced env (arg i)
  | unary {op : UnaryOp} {t : Term} (ht : Reduced env t) (not_literal : t.constant? = none)
      (not_negated : op = .neg → ∀ s, t ≠ unary .neg s) : Reduced env (unary op t)
  | binary {op : BinaryOp} {a b : Term} (ha : Reduced env a) (hb : Reduced env b)
      (not_literals : a.constant? = none ∨ b.constant? = none) (irreducible : IsIrreducible op a b) :
      Reduced env (binary op a b)
  | branch {c a b : Term} (hc : Reduced env c) (ha : Reduced env a) (hb : Reduced env b)
      (not_literal : c.constant? = none) : Reduced env (branch c a b)
  | loop {kind : Fold} {v : Address} {lower upper body : Term} (hl : Reduced env lower)
      (hu : Reduced env upper) (hb : Reduced env body)
      (not_literals : lower.constant? = none ∨ upper.constant? = none ∨ body.constant? = none) :
      Reduced env (loop kind v lower upper body)
  | call {f : FunctionId} {args : List Term} (hargs : ∀ t ∈ args, Reduced env t)
      (not_closed : closedCall? env f args.length = none) : Reduced env (call f args)

theorem chain_of_not_chain {op : BinaryOp} {t : Term} (h : ∀ a b, t ≠ binary op a b) :
    chain op t = [t] := by
  cases t with
  | binary o a b =>
    have ho : o ≠ op := fun ho => h a b (by rw [ho])
    rw [chain, chainOnto, if_neg ho]
  | _ => rfl

theorem not_chain_of_mem_chain {op : BinaryOp} (t : Term) :
    ∀ s ∈ chain op t, ∀ a b, s ≠ binary op a b := by
  induction t using Term.induction with
  | binary o a b iha ihb =>
    intro s hs
    by_cases ho : o = op
    · subst ho
      rw [chain_binary_self, List.mem_append] at hs
      exact hs.elim (iha s) (ihb s)
    · rw [chain, chainOnto, if_neg ho, List.mem_singleton] at hs
      rintro a' b' rfl
      cases hs
      exact ho rfl
  | _ =>
    intro s hs a' b' hne
    rw [List.mem_singleton.1 hs] at hne
    cases hne

theorem isLink_of_mem_others {op : BinaryOp} {a b t : Term} (h : t ∈ others op a b) :
    IsLink op t := by
  obtain ⟨hmem, hliteral⟩ := List.mem_filter.1 h
  refine ⟨Option.isNone_iff_eq_none.1 hliteral, ?_⟩
  rcases List.mem_append.1 hmem with hmem | hmem
  · exact not_chain_of_mem_chain a t hmem
  · exact not_chain_of_mem_chain b t hmem

theorem IsChain.exists_operands {op : BinaryOp} {t : Term} (h : IsChain op t) :
    ∃ first rest, chain op t = first :: rest ∧ joinChain op first rest = t ∧
      ∀ s ∈ first :: rest, s.constant? = none := by
  induction h with
  | @link t h => exact ⟨t, [], chain_of_not_chain h.not_chain, rfl, by simp [h.not_literal]⟩
  | @join a b _ hb ih =>
    obtain ⟨first, rest, hchain, hjoin, hliteral⟩ := ih
    refine ⟨first, rest ++ [b], ?_, ?_, ?_⟩
    · rw [chain_binary_self, hchain, chain_of_not_chain hb.not_chain]
      rfl
    · rw [joinChain] at hjoin
      rw [joinChain, List.foldl_append, hjoin]
      rfl
    · intro s hs
      rw [← List.cons_append, List.mem_append, List.mem_singleton] at hs
      rcases hs with hs | rfl
      · exact hliteral s hs
      · exact hb.not_literal

theorem filter_of_no_literal {ts : List Term} (h : ∀ t ∈ ts, t.constant? = none) :
    ts.filter (fun t => t.constant?.isNone) = ts ∧ ts.filterMap constant? = [] := by
  refine ⟨List.filter_eq_self.2 fun t ht => by rw [h t ht]; rfl, ?_⟩
  exact List.filterMap_eq_nil_iff.2 h

variable [SpecialFunctions]

@[simp] theorem mergedLiteral_nil (op : BinaryOp) : mergedLiteral op [] = chainIdentity op :=
  rfl

theorem mergedLiteral_singleton {op : BinaryOp} (hop : op = .add ∨ op = .mul) {x : Float}
    (h : Counts op x) : mergedLiteral op [x] = x := by
  rcases hop with rfl | rfl
  · exact Double.zero_add h.not_identity
  · exact Double.one_mul x

theorem mergeChain_of_isMerged {op : BinaryOp} (hop : op = .add ∨ op = .mul) {a b : Term}
    (h : IsMerged op (binary op a b)) : mergeChain op a b = binary op a b := by
  rw [mergeChain_eq, others, literals, ← chain_binary_self]
  rcases h with h | ⟨x, s, hx, hs, ht⟩
  · obtain ⟨first, rest, hchain, hjoin, hliteral⟩ := h.exists_operands
    obtain ⟨hfilter, hnone⟩ := filter_of_no_literal hliteral
    have hannihilate : (op = .mul && mergedLiteral op [] == 0.0) = false := by
      rw [mergedLiteral_nil]
      rcases hop with rfl | rfl <;> decide
    have hnan : (mergedLiteral op []).isNaN = false := by
      rw [mergedLiteral_nil]
      rcases hop with rfl | rfl <;> decide
    rw [hchain, hfilter, hnone]
    simp only [hannihilate, hnan, Bool.false_eq_true, if_false, List.isEmpty_nil, Bool.true_or,
      if_true, hjoin]
  · obtain ⟨first, rest, hchain, hjoin, hliteral⟩ := hs.exists_operands
    obtain ⟨hfilter, hnone⟩ := filter_of_no_literal hliteral
    have hparts : (chain op (binary op a b)).filter (fun t => t.constant?.isNone) = first :: rest ∧
        (chain op (binary op a b)).filterMap constant? = [x] := by
      have hconst : chain op (const x) = [const x] := rfl
      rw [ht, placeLiteral]
      split
      · rw [chain_binary_self, hconst, hchain, List.filter_append, List.filterMap_append, hfilter,
          hnone]
        exact ⟨rfl, rfl⟩
      · rw [chain_binary_self, hconst, hchain, List.filter_append, List.filterMap_append, hfilter,
          hnone]
        exact ⟨List.append_nil _, rfl⟩
    rw [hparts.1, hparts.2, mergedLiteral_singleton hop hx]
    simp only [hx.not_annihilator, hx.not_nan, hx.not_identity, Bool.false_eq_true, if_false,
      List.isEmpty_cons, Bool.or_self, hjoin, ht]

section

variable {env : Environment}

theorem Reduced.of_mem_chain {op : BinaryOp} {t : Term} (h : Reduced env t) :
    ∀ s ∈ chain op t, Reduced env s := by
  refine forall_mem_chain (fun a b h => ?_) t h
  cases h with
  | binary ha hb => exact ⟨ha, hb⟩

theorem Reduced.of_mem_others {op : BinaryOp} {a b : Term} (ha : Reduced env a)
    (hb : Reduced env b) : ∀ s ∈ others op a b, Reduced env s := by
  intro s hs
  rcases List.mem_append.1 (List.mem_filter.1 hs).1 with hs | hs
  · exact ha.of_mem_chain s hs
  · exact hb.of_mem_chain s hs

omit [SpecialFunctions] in
theorem isIrreducible_of_isMerged {op : BinaryOp} (hop : op = .add ∨ op = .mul) {a b : Term}
    (h : IsMerged op (binary op a b)) : IsIrreducible op a b := by
  rcases hop with rfl | rfl <;> exact h

theorem reduced_joinChain {op : BinaryOp} (hop : op = .add ∨ op = .mul) {rest : List Term} :
    ∀ {first : Term}, IsChain op first → Reduced env first → (∀ s ∈ rest, IsLink op s) →
      (∀ s ∈ rest, Reduced env s) →
      IsChain op (joinChain op first rest) ∧ Reduced env (joinChain op first rest) := by
  induction rest with
  | nil => exact fun hchain hfirst _ _ => ⟨hchain, hfirst⟩
  | cons t rest ih =>
    intro first hchain hfirst hlinks hrest
    have hlink := hlinks t (by simp)
    have hjoin : IsChain op (Term.binary op first t) := .join hchain hlink
    exact ih hjoin
      (.binary hfirst (hrest t (by simp)) (.inr hlink.not_literal)
        (isIrreducible_of_isMerged hop (.inl hjoin)))
      (fun s hs => hlinks s (by simp [hs])) fun s hs => hrest s (by simp [hs])

omit [SpecialFunctions] in
theorem IsChain.not_literal {op : BinaryOp} {t : Term} (h : IsChain op t) : t.constant? = none := by
  cases h with
  | link h => exact h.not_literal
  | join => rfl

theorem reduced_placeLiteral {op : BinaryOp} (hop : op = .add ∨ op = .mul) {x : Float} {t : Term}
    (hx : Counts op x) (hchain : IsChain op t) (ht : Reduced env t) :
    Reduced env (placeLiteral op x t) := by
  have hmerged : IsMerged op (placeLiteral op x t) := .inr ⟨x, t, hx, hchain, rfl⟩
  unfold placeLiteral at hmerged ⊢
  split at hmerged
  · rename_i hmul
    rw [if_pos hmul]
    exact .binary (.literal _) ht (.inr hchain.not_literal) (isIrreducible_of_isMerged hop hmerged)
  · rename_i hmul
    rw [if_neg hmul]
    exact .binary ht (.literal _) (.inl hchain.not_literal) (isIrreducible_of_isMerged hop hmerged)

/-! Every reduction ends in a reduced term -/

theorem reduced_mergeChain {op : BinaryOp} (hop : op = .add ∨ op = .mul) {a b : Term}
    (ha : Reduced env a) (hb : Reduced env b) : Reduced env (mergeChain op a b) := by
  have hlinks : ∀ s ∈ others op a b, IsLink op s := fun s => isLink_of_mem_others
  have hreduced : ∀ s ∈ others op a b, Reduced env s := ha.of_mem_others hb
  rw [mergeChain_eq]
  cases hothers : others op a b with
  | nil => exact .literal _
  | cons first rest =>
    rw [hothers] at hlinks hreduced
    obtain ⟨hlink, hlinks⟩ := List.forall_mem_cons.1 hlinks
    obtain ⟨hfirst, hrest⟩ := List.forall_mem_cons.1 hreduced
    obtain ⟨hchain, hjoined⟩ := reduced_joinChain hop (.link hlink) hfirst hlinks hrest
    simp only
    split
    · exact .literal _
    · rename_i hannihilator
      split
      · exact .literal _
      · rename_i hnan
        split
        · exact hjoined
        · rename_i hidentity
          rw [Bool.or_eq_true, not_or, Bool.not_eq_true, Bool.not_eq_true] at hidentity
          exact reduced_placeLiteral hop
            ⟨by simpa using hnan, hidentity.2, by simpa using hannihilator⟩ hchain hjoined

theorem reduced_reduceUnary {op : UnaryOp} {t : Term} (h : Reduced env t) :
    Reduced env (reduceUnary op t) := by
  unfold reduceUnary
  split
  · exact .literal _
  · rename_i inner
    cases h with
    | unary hinner =>
      split
      · exact hinner
      · rename_i hop
        exact .unary (.unary hinner ‹_› ‹_›) rfl fun h => absurd h hop
  · rename_i hconst hneg
    refine .unary h ?_ fun _ s hs => hneg s hs
    cases t with
    | literal x => exact absurd rfl (hconst x)
    | _ => rfl

theorem reduced_reduceBinary {op : BinaryOp} {a b : Term} (ha : Reduced env a)
    (hb : Reduced env b) : Reduced env (reduceBinary op a b) := by
  unfold reduceBinary
  split
  · exact .literal _
  · rename_i hliterals
    have hnot : a.constant? = none ∨ b.constant? = none := by
      cases hca : a.constant? with
      | none => exact .inl rfl
      | some x =>
        cases hcb : b.constant? with
        | none => exact .inr rfl
        | some y => exact absurd hcb (hliterals x y hca)
    split
    · exact reduced_mergeChain (.inl rfl) ha hb
    · exact reduced_mergeChain (.inr rfl) ha hb
    · split
      · exact ha
      · rename_i hrhs
        split
        · exact reduced_reduceUnary hb
        · rename_i hlhs
          exact .binary ha hb hnot ⟨by simpa using hlhs, by simpa using hrhs⟩
    · split
      · exact ha
      · rename_i hrhs
        have hone : b.isConst 1.0 = false := by simpa using hrhs
        exact .binary ha hb hnot hone
    · split
      · exact ha
      · rename_i hone
        split
        · exact .literal _
        · rename_i hzero
          exact .binary ha hb hnot ⟨by simpa using hone, by simpa using hzero⟩
    · rename_i hadd hmul hsub hdiv hpower
      refine .binary ha hb hnot ?_
      cases op <;> trivial

/-- Simplification ends in a reduced term. -/
theorem reduced_simplify (env : Environment) (t : Term) : Reduced env (t.simplify env) := by
  induction t using Term.induction with
  | literal x => exact .literal x
  | ref a => exact .ref a
  | arg i => exact .arg i
  | unary op t ih => exact reduced_reduceUnary ih
  | binary op a b iha ihb => exact reduced_reduceBinary iha ihb
  | branch c a b ihc iha ihb =>
    rw [simplify]
    split
    · split
      · exact .literal _
      · split
        · exact iha
        · exact ihb
    · rename_i hc
      refine .branch ihc iha ihb ?_
      cases hs : c.simplify env with
      | literal x => exact absurd hs (hc x)
      | _ => rfl
  | loop kind v lower upper body ihl ihu ihb =>
    rw [simplify, reduceLoop]
    split
    · exact .literal _
    · rename_i hliterals
      refine .loop ihl ihu ihb ?_
      cases hl : (lower.simplify env).constant? with
      | none => exact .inl rfl
      | some lo =>
        cases hu : (upper.simplify env).constant? with
        | none => exact .inr (.inl rfl)
        | some hi =>
          cases hb : (body.simplify env).constant? with
          | none => exact .inr (.inr rfl)
          | some x => exact absurd hb (hliterals lo hi x hl hu)
  | call f args ih =>
    rw [simplify, reduceCall, simplifyAll_eq_map]
    split
    · exact .literal _
    · rename_i hclosed
      refine .call (fun t ht => ?_) hclosed
      obtain ⟨s, hs, rfl⟩ := List.mem_map.1 ht
      exact ih s hs

/-! A reduced term is left as it is -/

theorem reduceUnary_of_reduced {op : UnaryOp} {t : Term} (h : Reduced env (.unary op t)) :
    reduceUnary op t = .unary op t := by
  cases h with
  | unary _ hliteral hneg =>
    unfold reduceUnary
    split
    · cases hliteral
    · rename_i inner _
      rw [if_neg fun hop => hneg hop inner rfl]
    · rfl

theorem reduceBinary_of_reduced {op : BinaryOp} {a b : Term} (h : Reduced env (.binary op a b)) :
    reduceBinary op a b = .binary op a b := by
  cases h with
  | binary _ _ hliterals hirreducible =>
    unfold reduceBinary
    split
    · rename_i x y hx hy
      rw [hx, hy] at hliterals
      rcases hliterals with h | h <;> cases h
    · split
      · exact mergeChain_of_isMerged (.inl rfl) hirreducible
      · exact mergeChain_of_isMerged (.inr rfl) hirreducible
      · obtain ⟨ha, hb⟩ := hirreducible
        rw [hb, ha]
        rfl
      · have hb : b.isConst 1.0 = false := hirreducible
        rw [hb]
        rfl
      · obtain ⟨hone, hzero⟩ := hirreducible
        rw [hone, hzero]
        rfl
      · rfl

theorem simplify_of_reduced {t : Term} (h : Reduced env t) : t.simplify env = t := by
  induction h with
  | literal | ref | arg => rfl
  | @unary op t ht hliteral hneg ih =>
    rw [simplify, ih, reduceUnary_of_reduced (.unary ht hliteral hneg)]
  | @binary op a b ha hb hliterals hirreducible iha ihb =>
    rw [simplify, iha, ihb, reduceBinary_of_reduced (.binary ha hb hliterals hirreducible)]
  | @branch c a b _ _ _ hliteral ihc iha ihb =>
    rw [simplify, ihc, iha, ihb]
    split
    · cases hliteral
    · rfl
  | @loop kind v lower upper body _ _ _ hliterals ihl ihu ihb =>
    rw [simplify, ihl, ihu, ihb, reduceLoop]
    split
    · rename_i lo hi x hl hu hb
      rw [hl, hu, hb] at hliterals
      rcases hliterals with h | h | h <;> cases h
    · rfl
  | @call f args _ hclosed ih =>
    have hargs : args.map (simplify env) = args := by
      rw [List.map_congr_left ih, List.map_id']
    rw [simplify, simplifyAll_eq_map, hargs, reduceCall, hclosed]

theorem simplify_eq_self_iff {t : Term} : t.simplify env = t ↔ Reduced env t :=
  ⟨fun h => h ▸ reduced_simplify env t, simplify_of_reduced⟩

end

end Term

namespace Expression

section

variable [SpecialFunctions]

def IsReduced (env : Environment) (e : Expression) : Prop :=
  ∃ t : Term, t.Fits ∧ t.Reduced env ∧ e = t.encode

theorem isReduced_encode {env : Environment} {t : Term} (fits : t.Fits) :
    t.encode.IsReduced env ↔ t.Reduced env := by
  constructor
  · rintro ⟨s, fits', hs, heq⟩
    rwa [Term.eq_of_encode_eq fits' heq]
  · exact fun h => ⟨t, fits, h, rfl⟩

theorem simplify_of_check_ne {env : Environment} {e : Expression} (h : e.check ≠ .ok ()) :
    e.simplify env = e := by
  unfold simplify
  split
  · rename_i hcheck _
    exact absurd hcheck h
  · rfl

/-- A second simplification changes nothing. The first one ends in a reduced form and leaves the
reduced forms, and no others, as they are. -/
theorem simplify_simplify (env : Environment) (e : Expression) :
    (e.simplify env).simplify env = e.simplify env ∧
      (e.check = .ok () →
        (e.simplify env).IsReduced env ∧ (e.simplify env = e ↔ e.IsReduced env)) := by
  by_cases hcheck : e.check = .ok ()
  · obtain ⟨t, fits, rfl⟩ := Term.check_eq_ok_iff.1 hcheck
    have fits' : (t.simplify env).Fits := Term.fits_simplify env fits
    have hreduced : (t.simplify env).Reduced env := Term.reduced_simplify env t
    rw [Term.simplify_encode env fits, Term.simplify_encode env fits',
      Term.simplify_of_reduced hreduced]
    refine ⟨rfl, fun _ => ⟨(isReduced_encode fits').2 hreduced, ?_⟩⟩
    rw [isReduced_encode fits, ← Term.simplify_eq_self_iff]
    exact ⟨Term.eq_of_encode_eq fits, congrArg Term.encode⟩
  · rw [simplify_of_check_ne hcheck]
    exact ⟨simplify_of_check_ne hcheck, fun h => absurd h hcheck⟩

end

open Series

/-- A sum of two variables and two literals, with a negation that only shows when it is simplified. -/
def scatteredSum : Term :=
  .binary .add (.binary .add (.const 1.0) (.ref ⟨0⟩))
    (.binary .sub (.const 0.0) (.unary .neg (.binary .add (.ref ⟨1⟩) (.const 2.0))))

theorem simplify_simplify_scatteredSum :
    scatteredSum.encode.check = .ok () ∧
      scatteredSum.encode.simplify .empty
        = (Term.binary .add (.binary .add (.ref ⟨0⟩) (.ref ⟨1⟩)) (.const 3.0)).encode ∧
      (scatteredSum.encode.simplify .empty).simplify .empty = scatteredSum.encode.simplify .empty ∧
      (scatteredSum.encode.simplify .empty).IsReduced .empty ∧
      ¬ scatteredSum.encode.IsReduced .empty := by
  have hcheck : scatteredSum.encode.check = .ok () := by decide +kernel
  obtain ⟨htwice, hvalid⟩ := simplify_simplify .empty scatteredSum.encode
  obtain ⟨hreduced, hself⟩ := hvalid hcheck
  refine ⟨hcheck, by decide +kernel, htwice, hreduced, fun h => ?_⟩
  exact absurd (hself.2 h) (by decide +kernel)

end Expression

end PrefixCalculus
