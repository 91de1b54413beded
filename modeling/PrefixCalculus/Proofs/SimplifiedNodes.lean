import PrefixCalculus.Numeric.Series
import PrefixCalculus.Proofs.OpenNodes
import PrefixCalculus.Proofs.ReducedForm
set_option autoImplicit false

/-!
What is left of an expression after simplification. Literals may be merged and put elsewhere, but
variables, parameters and calls are never moved, doubled or made up: some of them go, and the others
keep their order. Main statement: a simplified expression passes the check, is no longer than the
expression, and has a subsequence of its variables, parameters and calls; what is no expression is
left alone.
-/

namespace PrefixCalculus

namespace Term

/-! Chains -/

theorem openNodes_chain (op : BinaryOp) (t : Term) :
    (chain op t).flatMap (fun s => s.encode.openNodes) = t.encode.openNodes := by
  induction t using Term.induction with
  | binary o a b iha ihb =>
    by_cases ho : o = op
    · subst ho
      rw [chain_binary_self, List.flatMap_append, iha, ihb, openNodes_binary]
    · rw [chain, chainOnto, if_neg ho, List.flatMap_singleton]
  | _ => exact List.flatMap_singleton ..

theorem openNodes_joinChain (op : BinaryOp) (rest : List Term) : ∀ first : Term,
    (joinChain op first rest).encode.openNodes
      = (first :: rest).flatMap fun s => s.encode.openNodes := by
  induction rest with
  | nil => exact fun first => (List.flatMap_singleton ..).symm
  | cons t rest ih =>
    intro first
    have hrest := ih (binary op first t)
    rw [List.flatMap_cons, openNodes_binary, List.append_assoc] at hrest
    exact hrest

theorem openNodes_placeLiteral (op : BinaryOp) (x : Float) (t : Term) :
    (placeLiteral op x t).encode.openNodes = t.encode.openNodes := by
  unfold placeLiteral
  split <;> simp

variable [SpecialFunctions]

theorem openNodes_mergeChain_sublist (op : BinaryOp) (lhs rhs : Term) :
    (mergeChain op lhs rhs).encode.openNodes.Sublist
      (lhs.encode.openNodes ++ rhs.encode.openNodes) := by
  have hothers : ((others op lhs rhs).flatMap fun s => s.encode.openNodes).Sublist
      (lhs.encode.openNodes ++ rhs.encode.openNodes) := by
    rw [← openNodes_chain op lhs, ← openNodes_chain op rhs, ← List.flatMap_append]
    exact List.filter_sublist.flatMap _
  rw [mergeChain_eq]
  cases h : others op lhs rhs with
  | nil => exact List.nil_sublist _
  | cons first rest =>
    rw [h, ← openNodes_joinChain op rest first] at hothers
    dsimp only
    split
    · exact List.nil_sublist _
    · split
      · exact List.nil_sublist _
      · split
        · exact hothers
        · rwa [openNodes_placeLiteral]

/-! Reductions -/

theorem openNodes_reduceUnary_sublist (op : UnaryOp) (t : Term) :
    (reduceUnary op t).encode.openNodes.Sublist t.encode.openNodes := by
  unfold reduceUnary
  split
  · exact List.nil_sublist _
  · split <;> simp
  · simp

theorem openNodes_reduceBinary_sublist (op : BinaryOp) (lhs rhs : Term) :
    (reduceBinary op lhs rhs).encode.openNodes.Sublist
      (lhs.encode.openNodes ++ rhs.encode.openNodes) := by
  have hleft := List.sublist_append_left lhs.encode.openNodes rhs.encode.openNodes
  have hright := List.sublist_append_right lhs.encode.openNodes rhs.encode.openNodes
  have hboth : (binary op lhs rhs).encode.openNodes.Sublist
      (lhs.encode.openNodes ++ rhs.encode.openNodes) := by rw [openNodes_binary]
  unfold reduceBinary
  split
  · exact List.nil_sublist _
  · split
    · exact openNodes_mergeChain_sublist .add lhs rhs
    · exact openNodes_mergeChain_sublist .mul lhs rhs
    · split
      · exact hleft
      · split
        · exact (openNodes_reduceUnary_sublist .neg rhs).trans hright
        · exact hboth
    · split
      · exact hleft
      · exact hboth
    · split
      · exact hleft
      · split
        · exact List.nil_sublist _
        · exact hboth
    · exact hboth

theorem openNodes_simplify_sublist (env : Environment) (t : Term) :
    (t.simplify env).encode.openNodes.Sublist t.encode.openNodes := by
  induction t using Term.induction with
  | literal | ref | arg => exact List.Sublist.refl _
  | unary op t ih =>
    rw [openNodes_unary]
    exact (openNodes_reduceUnary_sublist op _).trans ih
  | binary op a b iha ihb =>
    rw [openNodes_binary]
    exact (openNodes_reduceBinary_sublist op _ _).trans (iha.append ihb)
  | branch c a b ihc iha ihb =>
    rw [simplify, openNodes_branch]
    split
    · split
      · exact List.nil_sublist _
      · split
        · exact iha.trans ((List.sublist_append_right _ _).trans (List.sublist_append_left _ _))
        · exact ihb.trans (List.sublist_append_right _ _)
    · rw [openNodes_branch]
      exact (ihc.append iha).append ihb
  | loop kind v lower upper body ihl ihu ihb =>
    rw [simplify, reduceLoop]
    split
    · exact List.nil_sublist _
    · rw [openNodes_loop, openNodes_loop]
      exact ((ihl.append ihu).append ihb).cons_cons _
  | call f args ih =>
    rw [simplify, reduceCall, simplifyAll_eq_map]
    split
    · exact List.nil_sublist _
    · rw [openNodes_call, openNodes_call, List.length_map, List.flatMap_map]
      exact (List.Sublist.flatMap_right args ih).cons_cons _

end Term

namespace Expression

/-- The simplified form of an expression that passes the check is not null and passes it too. It has
no more nodes than the expression, and its variables, parameters and calls are some of those of the
expression, in the same order. Whatever does not pass the check is left as it is. -/
theorem simplify_shrinks [SpecialFunctions] (env : Environment) (e : Expression) :
    (e.check = .ok () → (e.simplify env).isNull = false ∧ (e.simplify env).check = .ok () ∧
      (e.simplify env).size ≤ e.size ∧
      (∀ n ∈ (e.simplify env).nodes, n.isOpen = true → n ∈ e.nodes) ∧
      (e.simplify env).openNodes.Sublist e.openNodes) ∧
    (e.check ≠ .ok () → e.simplify env = e) := by
  refine ⟨fun h => ?_, simplify_of_check_ne⟩
  obtain ⟨t, fits, rfl⟩ := Term.check_eq_ok_iff.1 h
  have hsize := Term.size_simplify_le env t
  have hopen := Term.openNodes_simplify_sublist env t
  rw [Term.simplify_encode env fits]
  refine ⟨Term.isNull_encode _, Term.check_encode (Term.fits_simplify env fits), ?_, ?_, hopen⟩
  · rwa [size, size, Term.size_encode, Term.size_encode]
  · intro n hn hnode
    exact (mem_openNodes.1 (hopen.subset (mem_openNodes.2 ⟨hn, hnode⟩))).1

open Series

/-- The sum over `$0` from 1 to 2 of `($0 + 1) + (f($1) + 2)`. -/
def scatteredLoop : Term :=
  .loop .sum ⟨0⟩ (.const 1.0) (.const 2.0) (.binary .add (.binary .add (.ref ⟨0⟩) (.const 1.0))
    (.binary .add (.call ⟨0⟩ [.ref ⟨1⟩]) (.const 2.0)))

/-- The two literals of the body are merged, which leaves two nodes less; an operator without its
operands stays. -/
theorem simplify_shrinks_scatteredLoop :
    (scatteredLoop.encode.simplify .empty).check = .ok () ∧
    (scatteredLoop.encode.simplify .empty).size = 12 ∧ scatteredLoop.encode.size = 14 ∧
    (scatteredLoop.encode.simplify .empty).openNodes.Sublist scatteredLoop.encode.openNodes ∧
    scatteredLoop.encode.openNodes = [.ref ⟨0⟩, .ref ⟨0⟩, .call ⟨0⟩ 1, .ref ⟨1⟩] ∧
    simplify ⟨#[.op (.binary .add)]⟩ .empty = ⟨#[.op (.binary .add)]⟩ := by
  have accepted : scatteredLoop.encode.check = .ok () := rfl
  have refused : check ⟨#[.op (.binary .add)]⟩ ≠ .ok () := by decide
  obtain ⟨-, hcheck, -, -, hopen⟩ := (simplify_shrinks .empty scatteredLoop.encode).1 accepted
  exact ⟨hcheck, by decide +kernel, rfl, hopen, by decide, (simplify_shrinks .empty _).2 refused⟩

end Expression

end PrefixCalculus
