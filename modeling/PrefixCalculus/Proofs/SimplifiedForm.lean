import PrefixCalculus.Proofs.Encoding
import PrefixCalculus.Simplification
set_option autoImplicit false

/-!
The form of a simplified term. Main statements: simplification makes no term larger, and the simplified
form of a term that fits does.
-/

namespace PrefixCalculus

namespace Term

section

variable [SpecialFunctions]

/-! Chains -/

def literals (op : BinaryOp) (lhs rhs : Term) : List Float :=
  (chain op lhs ++ chain op rhs).filterMap constant?

def others (op : BinaryOp) (lhs rhs : Term) : List Term :=
  (chain op lhs ++ chain op rhs).filter fun t => t.constant?.isNone

def mergedLiteral (op : BinaryOp) (literals : List Float) : Float :=
  literals.foldl op.apply (chainIdentity op)

theorem mergeChain_eq (op : BinaryOp) (lhs rhs : Term) :
    mergeChain op lhs rhs =
      match others op lhs rhs with
      | [] => const (mergedLiteral op (literals op lhs rhs))
      | first :: rest =>
        if op = .mul && mergedLiteral op (literals op lhs rhs) == 0.0 then const 0.0
        else if (mergedLiteral op (literals op lhs rhs)).isNaN then const nan
        else if (literals op lhs rhs).isEmpty
            || mergedLiteral op (literals op lhs rhs) == chainIdentity op then
          joinChain op first rest
        else placeLiteral op (mergedLiteral op (literals op lhs rhs)) (joinChain op first rest) := by
  rw [mergeChain, chainOnto_eq]
  rfl

end

theorem const_inj {x y : Float} : const x = const y ↔ x = y := by
  rw [literal.injEq, Literal.number.injEq]

theorem constant?_eq_some {t : Term} {x : Float} :
    t.constant? = some x ↔ ∃ l, t = literal l ∧ l.value = x := by
  cases t <;> simp [constant?]

/-- What both operands of the operator inherit, every operand of its chain inherits. -/
theorem forall_mem_chain {op : BinaryOp} {motive : Term → Prop}
    (h : ∀ a b, motive (binary op a b) → motive a ∧ motive b) (t : Term) :
    motive t → ∀ s ∈ chain op t, motive s := by
  induction t using Term.induction with
  | binary o a b iha ihb =>
    intro ht s hs
    by_cases ho : o = op
    · subst ho
      obtain ⟨ha, hb⟩ := h a b ht
      rw [chain_binary_self, List.mem_append] at hs
      rcases hs with hs | hs
      · exact iha ha s hs
      · exact ihb hb s hs
    · rw [chain, chainOnto, if_neg ho, List.mem_singleton] at hs
      rwa [hs]
  | _ =>
    intro ht s hs
    rwa [List.mem_singleton.1 hs]

theorem sizeAll_append (ts us : List Term) : sizeAll (ts ++ us) = sizeAll ts + sizeAll us := by
  induction ts with
  | nil => simp [sizeAll]
  | cons t ts ih => simp [sizeAll, ih, Nat.add_assoc]

theorem size_chain (op : BinaryOp) (t : Term) :
    sizeAll (chain op t) + (chain op t).length = t.size + 1 := by
  induction t using Term.induction with
  | binary o a b iha ihb =>
    by_cases ho : o = op
    · subst ho
      rw [chain_binary_self, sizeAll_append, List.length_append, size]
      omega
    · rw [chain, chainOnto, if_neg ho]
      rfl
  | _ => rfl

theorem size_split (ts : List Term) :
    sizeAll ts + ts.length = sizeAll (ts.filter fun t => t.constant?.isNone)
      + (ts.filter fun t => t.constant?.isNone).length + 2 * (ts.filterMap constant?).length := by
  induction ts with
  | nil => rfl
  | cons t ts ih =>
    cases ht : t.constant? with
    | none =>
      simp only [List.filter_cons, List.filterMap_cons, ht, Option.isNone_none, if_true, sizeAll,
        List.length_cons]
      omega
    | some x =>
      obtain ⟨l, rfl, -⟩ := constant?_eq_some.1 ht
      simp only [List.filter_cons, List.filterMap_cons, ht, Option.isNone_some, Bool.false_eq_true,
        if_false, sizeAll, size, List.length_cons]
      omega

theorem size_joinChain (op : BinaryOp) (rest : List Term) : ∀ first : Term,
    (joinChain op first rest).size = first.size + sizeAll rest + rest.length := by
  induction rest with
  | nil => intro first; rfl
  | cons t rest ih =>
    intro first
    have hrest := ih (binary op first t)
    simp only [joinChain] at hrest
    simp only [joinChain, List.foldl_cons, hrest, size, sizeAll, List.length_cons]
    omega

theorem fits_joinChain {op : BinaryOp} {rest : List Term} : ∀ {first : Term}, first.Fits →
    (∀ t ∈ rest, t.Fits) → (joinChain op first rest).Fits := by
  induction rest with
  | nil => exact fun hfirst _ => hfirst
  | cons t rest ih =>
    intro first hfirst hrest
    exact ih ⟨hfirst, hrest t (by simp)⟩ fun s hs => hrest s (by simp [hs])

/-! What the reductions make of terms that are simplified already -/

theorem size_placeLiteral (op : BinaryOp) (x : Float) (t : Term) :
    (placeLiteral op x t).size = t.size + 2 := by
  unfold placeLiteral
  split <;> simp only [size] <;> omega

theorem fits_placeLiteral {op : BinaryOp} {x : Float} {t : Term} (h : t.Fits) :
    (placeLiteral op x t).Fits := by
  unfold placeLiteral
  split
  · exact ⟨trivial, h⟩
  · exact ⟨h, trivial⟩

variable [SpecialFunctions]

theorem size_mergeChain_le (op : BinaryOp) (lhs rhs : Term) :
    (mergeChain op lhs rhs).size ≤ 1 + lhs.size + rhs.size := by
  have hlhs := size_chain op lhs
  have hrhs := size_chain op rhs
  have hsplit := size_split (chain op lhs ++ chain op rhs)
  rw [sizeAll_append, List.length_append] at hsplit
  rw [mergeChain_eq]
  cases hothers : others op lhs rhs with
  | nil => simp only [size]; omega
  | cons first rest =>
    rw [others] at hothers
    rw [hothers, List.length_cons, sizeAll] at hsplit
    have hjoined := size_joinChain op rest first
    simp only
    split
    · simp only [size]; omega
    · split
      · simp only [size]; omega
      · split
        · omega
        · rename_i hliterals
          rw [size_placeLiteral]
          have hpos : 0 < (literals op lhs rhs).length := by
            rw [Bool.or_eq_true, not_or, List.isEmpty_iff] at hliterals
            exact List.length_pos_iff.2 hliterals.1
          rw [literals] at hpos
          omega

theorem fits_mergeChain {op : BinaryOp} {lhs rhs : Term} (hl : lhs.Fits) (hr : rhs.Fits) :
    (mergeChain op lhs rhs).Fits := by
  have hoperands : ∀ t ∈ others op lhs rhs, t.Fits := by
    intro t ht
    have hfits : ∀ t : Term, t.Fits → ∀ s ∈ chain op t, s.Fits := forall_mem_chain fun _ _ h => h
    rcases List.mem_append.1 (List.mem_filter.1 ht).1 with ht | ht
    · exact hfits lhs hl t ht
    · exact hfits rhs hr t ht
  rw [mergeChain_eq]
  cases hothers : others op lhs rhs with
  | nil => trivial
  | cons first rest =>
    rw [hothers] at hoperands
    have hjoined : (joinChain op first rest).Fits :=
      fits_joinChain (hoperands first (by simp)) fun t ht => hoperands t (by simp [ht])
    simp only
    split
    · trivial
    · split
      · trivial
      · split
        · exact hjoined
        · exact fits_placeLiteral hjoined

theorem size_reduceUnary_le (op : UnaryOp) (t : Term) : (reduceUnary op t).size ≤ 1 + t.size := by
  unfold reduceUnary
  split
  · simp only [size]; omega
  · split <;> simp only [size] <;> omega
  · exact Nat.le_refl _

theorem fits_reduceUnary {op : UnaryOp} {t : Term} (h : t.Fits) : (reduceUnary op t).Fits := by
  unfold reduceUnary
  split
  · trivial
  · split <;> exact h
  · exact h

theorem size_reduceBinary_le (op : BinaryOp) (lhs rhs : Term) :
    (reduceBinary op lhs rhs).size ≤ 1 + lhs.size + rhs.size := by
  have hneg := size_reduceUnary_le .neg rhs
  have hpos := lhs.size_pos
  unfold reduceBinary
  split
  · simp only [size]; omega
  · split
    · exact size_mergeChain_le .add lhs rhs
    · exact size_mergeChain_le .mul lhs rhs
    · split
      · omega
      · split
        · omega
        · exact Nat.le_refl _
    · split
      · omega
      · exact Nat.le_refl _
    · split
      · omega
      · split <;> simp only [size] <;> omega
    · exact Nat.le_refl _

theorem fits_reduceBinary {op : BinaryOp} {lhs rhs : Term} (hl : lhs.Fits) (hr : rhs.Fits) :
    (reduceBinary op lhs rhs).Fits := by
  unfold reduceBinary
  split
  · trivial
  · split
    · exact fits_mergeChain hl hr
    · exact fits_mergeChain hl hr
    · split
      · exact hl
      · split
        · exact fits_reduceUnary hr
        · exact ⟨hl, hr⟩
    · split
      · exact hl
      · exact ⟨hl, hr⟩
    · split
      · exact hl
      · split
        · trivial
        · exact ⟨hl, hr⟩
    · exact ⟨hl, hr⟩

/-! Simplified terms -/

theorem simplifyAll_eq_map (env : Environment) (ts : List Term) :
    simplifyAll env ts = ts.map (simplify env) := by
  induction ts with
  | nil => rfl
  | cons t ts ih => simp [simplifyAll, ih]

omit [SpecialFunctions] in
theorem sizeAll_map_le {f : Term → Term} {ts : List Term} (h : ∀ t ∈ ts, (f t).size ≤ t.size) :
    sizeAll (ts.map f) ≤ sizeAll ts := by
  induction ts with
  | nil => exact Nat.le_refl 0
  | cons t ts ih =>
    have ht := h t (by simp)
    have hts := ih fun s hs => h s (by simp [hs])
    simp only [List.map_cons, sizeAll]
    omega

theorem size_simplify_le (env : Environment) (t : Term) : (t.simplify env).size ≤ t.size := by
  induction t using Term.induction with
  | literal | ref | arg => exact Nat.le_refl _
  | unary op t ih =>
    have h := size_reduceUnary_le op (t.simplify env)
    simp only [simplify, size]
    omega
  | binary op a b iha ihb =>
    have h := size_reduceBinary_le op (a.simplify env) (b.simplify env)
    simp only [simplify, size]
    omega
  | branch c a b ihc iha ihb =>
    rw [simplify]
    split
    · split
      · simp only [size]; omega
      · split <;> simp only [size] <;> omega
    · simp only [size]; omega
  | loop kind v lower upper body ihl ihu ihb =>
    rw [simplify, reduceLoop]
    split <;> simp only [size] <;> omega
  | call f args ih =>
    have hargs := sizeAll_map_le ih
    rw [simplify, reduceCall, simplifyAll_eq_map]
    split <;> simp only [size] <;> omega

theorem fits_simplify (env : Environment) {t : Term} (h : t.Fits) : (t.simplify env).Fits := by
  induction t using Term.induction with
  | literal | ref | arg => trivial
  | unary op t ih => exact fits_reduceUnary (ih h)
  | binary op a b iha ihb => exact fits_reduceBinary (iha h.1) (ihb h.2)
  | branch c a b ihc iha ihb =>
    obtain ⟨hc, ha, hb, hsizea, hsizeb⟩ := h
    have hlea := size_simplify_le env a
    have hleb := size_simplify_le env b
    rw [simplify]
    split
    · split
      · trivial
      · split
        · exact iha ha
        · exact ihb hb
    · exact ⟨ihc hc, iha ha, ihb hb, by omega, by omega⟩
  | loop kind v lower upper body ihl ihu ihb =>
    obtain ⟨hl, hu, hb, hsize⟩ := h
    have hle := size_simplify_le env body
    rw [simplify, reduceLoop]
    split
    · trivial
    · exact ⟨ihl hl, ihu hu, ihb hb, by omega⟩
  | call f args ih =>
    obtain ⟨hargs, hlength⟩ := h
    rw [fitsAll_iff] at hargs
    rw [simplify, reduceCall, simplifyAll_eq_map]
    split
    · trivial
    · refine ⟨(fitsAll_iff _).2 fun t ht => ?_, by rwa [List.length_map]⟩
      obtain ⟨s, hs, rfl⟩ := List.mem_map.1 ht
      exact ih s hs (hargs s hs)

@[simp] theorem simplify_setValue (env : Environment) (a : Address) (x : Float) (t : Term) :
    t.simplify (env.setValue a x) = t.simplify env := by
  have hcall : ∀ f argc, closedCall? (env.setValue a x) f argc = closedCall? env f argc := by
    intro f argc
    rw [closedCall?, closedCall?, Environment.function?_setValue]
  induction t using Term.induction with
  | literal | ref | arg => rfl
  | unary op t ih => simp only [simplify, ih]
  | binary op a b iha ihb => simp only [simplify, iha, ihb]
  | branch c a b ihc iha ihb => simp only [simplify, ihc, iha, ihb]
  | loop kind v lower upper body ihl ihu ihb => simp only [simplify, ihl, ihu, ihb]
  | call f args ih =>
    simp only [simplify, simplifyAll_eq_map, reduceCall, hcall, List.map_congr_left ih]

theorem simplify_encode (env : Environment) {t : Term} (fits : t.Fits) :
    t.encode.simplify env = (t.simplify env).encode := by
  simp only [Expression.simplify, check_encode fits, decode_encode fits]

end Term

end PrefixCalculus
