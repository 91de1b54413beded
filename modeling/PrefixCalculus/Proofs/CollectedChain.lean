import PrefixCalculus.Numeric.Series
import PrefixCalculus.Proofs.ReducedForm
set_option autoImplicit false

/-!
What becomes of a chain of additions or multiplications, said without the functions that take it apart
and put it together again. Main statement: however the chain is nested, its operands that are no
literals stay, each once and in their order, and its literals become one, in its place; unless that one
is zero in a product, or NaN, or all there is.
-/

namespace PrefixCalculus

namespace Term

/-- The operands of a chain from left to right, however it is nested. -/
inductive Flattens (op : BinaryOp) : Term → List Term → Prop
  | operand {t : Term} (h : ∀ a b, t ≠ binary op a b) : Flattens op t [t]
  | nested {a b : Term} {ts us : List Term} (ha : Flattens op a ts) (hb : Flattens op b us) :
      Flattens op (binary op a b) (ts ++ us)

inductive LeftNested (op : BinaryOp) : Term → List Term → Prop
  | first (t : Term) : LeftNested op t [t]
  | join {t : Term} {ts : List Term} (h : LeftNested op t ts) (s : Term) :
      LeftNested op (binary op t s) (ts ++ [s])

/-- What a chain becomes that has these literals and, besides them, these operands. -/
inductive Collected [SpecialFunctions] (op : BinaryOp) (literals : List Float) :
    List Term → Term → Prop
  | literals : Collected op literals [] (const (mergedLiteral op literals))
  | zero {operands : List Term} (some : operands ≠ []) (hop : op = .mul)
      (zero : (mergedLiteral op literals == 0.0) = true) :
      Collected op literals operands (const 0.0)
  | undefined {operands : List Term} (some : operands ≠ [])
      (undefined : (mergedLiteral op literals).isNaN = true) :
      Collected op literals operands (const nan)
  | plain {operands : List Term} {t : Term}
      (neutral : literals = [] ∨ (mergedLiteral op literals == chainIdentity op) = true)
      (nested : LeftNested op t operands) : Collected op literals operands t
  | sum {operands : List Term} {t : Term} (hop : op = .add) (some : literals ≠ [])
      (counts : Counts op (mergedLiteral op literals)) (nested : LeftNested op t operands) :
      Collected op literals operands (binary op t (const (mergedLiteral op literals)))
  | product {operands : List Term} {t : Term} (hop : op = .mul) (some : literals ≠ [])
      (counts : Counts op (mergedLiteral op literals)) (nested : LeftNested op t operands) :
      Collected op literals operands (binary op (const (mergedLiteral op literals)) t)

theorem flattens_chain (op : BinaryOp) (t : Term) : Flattens op t (chain op t) := by
  induction t using Term.induction with
  | binary o a b iha ihb =>
    by_cases ho : o = op
    · subst ho
      rw [chain_binary_self]
      exact .nested iha ihb
    · rw [chain, chainOnto, if_neg ho]
      exact .operand fun a' b' h => ho (by cases h; rfl)
  | _ => exact .operand fun _ _ h => by cases h

/-- A chain has its operands in one way only. -/
theorem flattens_iff {op : BinaryOp} {t : Term} {ts : List Term} :
    Flattens op t ts ↔ ts = chain op t := by
  constructor
  · intro h
    induction h with
    | operand h => exact (chain_of_not_chain h).symm
    | nested _ _ iha ihb => rw [iha, ihb, chain_binary_self]
  · rintro rfl
    exact flattens_chain op t

theorem leftNested_joinChain (op : BinaryOp) (rest : List Term) :
    ∀ {first : Term} {ts : List Term}, LeftNested op first ts →
      LeftNested op (joinChain op first rest) (ts ++ rest) := by
  induction rest with
  | nil =>
    intro first ts h
    rwa [List.append_nil]
  | cons t rest ih =>
    intro first ts h
    have hrest := ih (h.join t)
    rwa [List.append_assoc] at hrest

section

variable [SpecialFunctions]

theorem collected_placeLiteral {op : BinaryOp} (hop : op = .add ∨ op = .mul) {literals : List Float}
    {operands : List Term} {t : Term} (some : literals ≠ [])
    (counts : Counts op (mergedLiteral op literals)) (nested : LeftNested op t operands) :
    Collected op literals operands (placeLiteral op (mergedLiteral op literals) t) := by
  rcases hop with rfl | rfl
  · exact .sum rfl some counts nested
  · exact .product rfl some counts nested

theorem collected_mergeChain {op : BinaryOp} (hop : op = .add ∨ op = .mul) (lhs rhs : Term) :
    Collected op (literals op lhs rhs) (others op lhs rhs) (mergeChain op lhs rhs) := by
  rw [mergeChain_eq]
  cases others op lhs rhs with
  | nil => exact .literals
  | cons first rest =>
    have hnested : LeftNested op (joinChain op first rest) (first :: rest) :=
      leftNested_joinChain op rest (.first first)
    dsimp only
    by_cases hzero : (op = .mul && mergedLiteral op (literals op lhs rhs) == 0.0) = true
    · rw [if_pos hzero]
      rw [Bool.and_eq_true, decide_eq_true_eq] at hzero
      exact .zero (by simp) hzero.1 hzero.2
    · rw [if_neg hzero]
      cases hnan : (mergedLiteral op (literals op lhs rhs)).isNaN with
      | true =>
        rw [if_pos rfl]
        exact .undefined (by simp) hnan
      | false =>
        rw [if_neg Bool.false_ne_true]
        by_cases hneutral : ((literals op lhs rhs).isEmpty
            || mergedLiteral op (literals op lhs rhs) == chainIdentity op) = true
        · rw [if_pos hneutral]
          rw [Bool.or_eq_true, List.isEmpty_iff] at hneutral
          exact .plain hneutral hnested
        · rw [if_neg hneutral]
          rw [Bool.not_eq_true, Bool.or_eq_false_iff, List.isEmpty_eq_false_iff] at hneutral
          exact collected_placeLiteral hop hneutral.1
            ⟨hnan, hneutral.2, Bool.eq_false_iff.2 hzero⟩ hnested

/-- **A chain is collected without loss.** A sum or product of two terms that are not both literals has
one flattened form; its operands that are no literals are those of the collected term, each once, in
the same order and nested to the left, with the literals merged into one in its place. -/
theorem collects_chain {op : BinaryOp} (hop : op = .add ∨ op = .mul) {lhs rhs : Term}
    (hoperands : lhs.constant? = none ∨ rhs.constant? = none) :
    reduceBinary op lhs rhs = mergeChain op lhs rhs ∧
      ∃ operands, (∀ ts, Flattens op (binary op lhs rhs) ts ↔ ts = operands) ∧
        Collected op (operands.filterMap constant?)
          (operands.filter fun t => t.constant?.isNone) (mergeChain op lhs rhs) := by
  constructor
  · unfold reduceBinary
    split
    · rename_i hl hr
      rw [hl, hr] at hoperands
      exact absurd hoperands (by simp)
    · rcases hop with rfl | rfl <;> rfl
  · refine ⟨_, fun ts => flattens_iff, ?_⟩
    rw [chain_binary_self]
    exact collected_mergeChain hop lhs rhs

end

open Series

/-- A sum with a literal in either operand, once in front and once inside. -/
def scatteredLeft : Term := binary .add (const 1.5) (ref ⟨0⟩)

def scatteredRight : Term := binary .add (binary .add (ref ⟨1⟩) (const 2.0)) (arg 0)

theorem collects_scatteredSum :
    (scatteredLeft.constant? = none ∨ scatteredRight.constant? = none) ∧
      (reduceBinary .add scatteredLeft scatteredRight = mergeChain .add scatteredLeft scatteredRight ∧
        ∃ operands, (∀ ts, Flattens .add (binary .add scatteredLeft scatteredRight) ts ↔ ts = operands) ∧
          Collected .add (operands.filterMap constant?)
            (operands.filter fun t => t.constant?.isNone)
            (mergeChain .add scatteredLeft scatteredRight)) ∧
      mergeChain .add scatteredLeft scatteredRight
        = binary .add (binary .add (binary .add (ref ⟨0⟩) (ref ⟨1⟩)) (arg 0)) (const 3.5) :=
  ⟨.inl rfl, collects_chain (.inl rfl) (.inl rfl), rfl⟩

end Term

end PrefixCalculus
