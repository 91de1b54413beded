import PrefixCalculus.Proofs.Unrolling
set_option autoImplicit false

/-!
What the rules of differentiation build. A builder with a null operand gives null, and a double
negation that cancels cuts the operand out. Main statements: from flat forms of terms of a class
every rule builds the flat form of a term of the class, if an operator makes a term of the class from
any operands in it; where something may get lost null stays null.
-/

namespace PrefixCalculus

/-- The flat form of a term of the class; or null, where something may get lost. -/
def IsForm (lost : Prop) (I : Term → Prop) (e : Expression) : Prop :=
  lost ∧ e = .null ∨ ∃ t, I t ∧ e = t.encode

namespace Term

structure Buildable (I : Term → Prop) : Prop where
  literal : ∀ x, I (.literal x)
  unary : ∀ {op t}, I (.unary op t) ↔ I t
  binary : ∀ {op a b}, I (.binary op a b) ↔ I a ∧ I b
  branch : ∀ {c a b}, I (.branch c a b) ↔ I c ∧ I a ∧ I b

theorem exists_of_head_unary {op : UnaryOp} {t : Term}
    (h : t.encode.nodes[0]? = some (.op (.unary op))) : ∃ a, t = .unary op a := by
  rw [head_of_stands (stands_self _)] at h
  cases t with
  | unary op' a =>
    cases h
    exact ⟨a, rfl⟩
  | _ => cases h

end Term

/-! Builders -/

namespace IsForm

variable {lost : Prop} {I : Term → Prop} {a b c e : Expression} (build : Term.Buildable I)
include build

theorem literal (x : Literal) : IsForm lost I (.literal x) :=
  .inr ⟨.literal x, build.literal x, rfl⟩

theorem unary (op : UnaryOp) (h : IsForm lost I e) : IsForm lost I (.unary op e) := by
  obtain ⟨hlost, rfl⟩ | ⟨t, ht, rfl⟩ := h
  · exact .inl ⟨hlost, rfl⟩
  · exact .inr ⟨.unary op t, build.unary.2 ht, rfl⟩

theorem binary (op : BinaryOp) (ha : IsForm lost I a) (hb : IsForm lost I b) :
    IsForm lost I (.binary op a b) := by
  obtain ⟨hlost, rfl⟩ | ⟨t, ht, rfl⟩ := ha
  · exact .inl ⟨hlost, by simp [Expression.binary, Expression.operation, Expression.headed]⟩
  · obtain ⟨hlost, rfl⟩ | ⟨u, hu, rfl⟩ := hb
    · exact .inl ⟨hlost, by simp [Expression.binary, Expression.operation, Expression.headed]⟩
    · exact .inr ⟨.binary op t u, build.binary.2 ⟨ht, hu⟩, rfl⟩

theorem branch (hc : IsForm lost I c) (ha : IsForm lost I a) (hb : IsForm lost I b) :
    IsForm lost I (.branch c a b) := by
  have hnull : ∀ c a b : Expression, c.isNull = true ∨ a.isNull = true ∨ b.isNull = true →
      Expression.branch c a b = .null := by
    intro c a b h
    rw [← Expression.isNull_iff, Expression.isNull_branch]
    simpa [or_assoc] using h
  obtain ⟨hlost, rfl⟩ | ⟨t, ht, rfl⟩ := hc
  · exact .inl ⟨hlost, hnull _ _ _ (.inl rfl)⟩
  · obtain ⟨hlost, rfl⟩ | ⟨u, hu, rfl⟩ := ha
    · exact .inl ⟨hlost, hnull _ _ _ (.inr (.inl rfl))⟩
    · obtain ⟨hlost, rfl⟩ | ⟨v, hv, rfl⟩ := hb
      · exact .inl ⟨hlost, hnull _ _ _ (.inr (.inr rfl))⟩
      · exact .inr ⟨.branch t u v, build.branch.2 ⟨ht, hu, hv⟩, rfl⟩

variable [SpecialFunctions]

theorem folded_unary (op : UnaryOp) (h : IsForm lost I e) : IsForm lost I (Folding.unary op e) := by
  unfold Folding.unary
  split
  · exact literal build _
  · exact unary build op h

theorem folded_binary (op : BinaryOp) (ha : IsForm lost I a) (hb : IsForm lost I b) :
    IsForm lost I (Folding.binary op a b) := by
  unfold Folding.binary
  split
  · exact literal build _
  · exact binary build op ha hb

theorem neg (h : IsForm lost I e) : IsForm lost I (Folding.neg e) := by
  unfold Folding.neg
  split
  · rename_i hhead
    obtain ⟨-, rfl⟩ | ⟨t, ht, rfl⟩ := h
    · cases hhead
    · obtain ⟨a, rfl⟩ := Term.exists_of_head_unary hhead
      have hstands := (Term.stands_unary.1 (stands_self (Term.unary .neg a).encode.nodes)).2
      have hsize : (Term.unary .neg a).encode.size = 0 + 1 + a.encode.nodes.size := by
        rw [Expression.size, Term.size_encode, Term.size_encode, Term.size]
      rw [hsize, Expression.slice_of_stands hstands]
      exact .inr ⟨a, build.unary.1 ht, rfl⟩
  · exact folded_unary build .neg h

theorem add (ha : IsForm lost I a) (hb : IsForm lost I b) : IsForm lost I (Folding.add a b) := by
  unfold Folding.add
  split
  · exact hb
  · split
    · exact ha
    · exact folded_binary build .add ha hb

theorem sub (ha : IsForm lost I a) (hb : IsForm lost I b) : IsForm lost I (Folding.sub a b) := by
  unfold Folding.sub
  split
  · exact ha
  · split
    · exact neg build hb
    · exact folded_binary build .sub ha hb

theorem mul (ha : IsForm lost I a) (hb : IsForm lost I b) : IsForm lost I (Folding.mul a b) := by
  unfold Folding.mul
  split
  · exact literal build _
  · split
    · exact hb
    · split
      · exact ha
      · exact folded_binary build .mul ha hb

theorem div (ha : IsForm lost I a) (hb : IsForm lost I b) : IsForm lost I (Folding.div a b) := by
  unfold Folding.div
  split
  · exact literal build _
  · split
    · exact ha
    · exact folded_binary build .div ha hb

theorem pow (ha : IsForm lost I a) (hb : IsForm lost I b) : IsForm lost I (Folding.pow a b) := by
  unfold Folding.pow
  split
  · exact ha
  · exact folded_binary build .power ha hb

theorem square (h : IsForm lost I e) : IsForm lost I (Folding.square e) :=
  pow build h (literal build _)

theorem oneMinusSquare (h : IsForm lost I e) : IsForm lost I (Folding.oneMinusSquare e) :=
  sub build (literal build _) (square build h)

theorem errorSlope (h : IsForm lost I e) : IsForm lost I (Folding.errorSlope e) :=
  mul build (literal build _) (folded_unary build _ (neg build (square build h)))

theorem productOf {factors : List Expression} (h : ∀ e ∈ factors, IsForm lost I e) :
    IsForm lost I (Derivation.productOf factors) := by
  suffices ∀ acc, IsForm lost I acc → IsForm lost I (factors.foldl Folding.mul acc) from
    this _ (literal build _)
  induction factors with
  | nil => exact fun acc hacc => hacc
  | cons e factors ih =>
    obtain ⟨he, hfactors⟩ := List.forall_mem_cons.1 h
    exact fun acc hacc => ih hfactors _ (mul build hacc he)

/-! Rules -/

theorem unary_derivative? {op : UnaryOp} {u du d : Expression} (hu : IsForm lost I u)
    (hdu : IsForm lost I du) (h : op.derivative? u du = some d) : IsForm lost I d := by
  cases op <;> simp only [UnaryOp.derivative?, Option.some.injEq, reduceCtorEq] at h <;> subst h
  all_goals
    apply_rules [hu, hdu, literal build, folded_unary build, neg build, add build, sub build, mul build,
      div build, square build, oneMinusSquare build, errorSlope build]

theorem quotientRule {da db : Expression} (ha : IsForm lost I a) (hb : IsForm lost I b)
    (hda : IsForm lost I da) (hdb : IsForm lost I db) :
    IsForm lost I (Folding.quotientRule a b da db) := by
  unfold Folding.quotientRule
  split
  · exact div build hda hb
  · exact div build (sub build (mul build hda hb) (mul build hdb ha)) (square build hb)

omit [SpecialFunctions] in
theorem pickRule {pick : BinaryOp} {da db : Expression} (ha : IsForm lost I a) (hb : IsForm lost I b)
    (hda : IsForm lost I da) (hdb : IsForm lost I db) :
    IsForm lost I (Folding.pickRule pick a b da db) := by
  unfold Folding.pickRule
  split
  · exact literal build _
  · exact branch build (binary build pick ha hb) hda hdb

theorem betaRule {da db : Expression} (ha : IsForm lost I a) (hb : IsForm lost I b)
    (hda : IsForm lost I da) (hdb : IsForm lost I db) :
    IsForm lost I (Folding.betaRule a b da db) := by
  have hslope := folded_unary build .digamma (add build ha hb)
  unfold Folding.betaRule
  split
  · exact literal build _
  · exact mul build (folded_binary build .beta ha hb) (add build
      (mul build (sub build (folded_unary build .digamma ha) hslope) hda)
      (mul build (sub build (folded_unary build .digamma hb) hslope) hdb))

theorem binary_derivative? {op : BinaryOp} {da db d : Expression} (ha : IsForm lost I a)
    (hb : IsForm lost I b) (hda : IsForm lost I da) (hdb : IsForm lost I db)
    (h : op.derivative? a b da db = some d) : IsForm lost I d := by
  cases op <;> simp only [BinaryOp.derivative?, Option.some.injEq, reduceCtorEq] at h <;> subst h
  all_goals
    apply_rules [ha, hb, hda, hdb, add build, sub build, mul build, quotientRule build, pickRule build,
      betaRule build]

theorem powerRule {da : Expression} (ha : IsForm lost I a) (hb : IsForm lost I b)
    (hda : IsForm lost I da) : IsForm lost I (Folding.powerRule a b da) := by
  unfold Folding.powerRule
  split
  · exact literal build _
  · exact mul build (mul build hb (pow build ha (sub build hb (literal build _)))) hda

theorem logBaseRule {da : Expression} (ha : IsForm lost I a) (hb : IsForm lost I b)
    (hda : IsForm lost I da) : IsForm lost I (Folding.logBaseRule a b da) :=
  div build hda (mul build ha (folded_unary build .ln hb))

end IsForm

end PrefixCalculus
