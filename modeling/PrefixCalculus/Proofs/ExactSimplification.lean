import PrefixCalculus.Numeric.Series
import PrefixCalculus.Proofs.Instantiation
import PrefixCalculus.Proofs.SimplifiedValue
import PrefixCalculus.Proofs.UniqueDecoding
set_option autoImplicit false

/-!
Where simplification is exact. The reductions that may change a number are those of chains, of
subtractions, of powers with a literal exponent and of loops of which only literals are left. Main
statement: without chains, subtractions and such loops an expression keeps its value, if the powers
that are evaluated on the way obey the laws for the exponents one and zero.
-/

namespace PrefixCalculus

namespace Term

section

variable [SpecialFunctions]

mutual

def hasLiteralLoop (env : Environment) : Term → Bool
  | literal _ | ref _ | arg _ => false
  | unary _ operand => operand.hasLiteralLoop env
  | binary _ lhs rhs => lhs.hasLiteralLoop env || rhs.hasLiteralLoop env
  | branch condition yes no =>
    condition.hasLiteralLoop env || yes.hasLiteralLoop env || no.hasLiteralLoop env
  | loop _ _ lower upper body =>
    ((lower.simplify env).constant?.isSome && (upper.simplify env).constant?.isSome
        && (body.simplify env).constant?.isSome)
      || lower.hasLiteralLoop env || upper.hasLiteralLoop env || body.hasLiteralLoop env
  | call _ args => anyHasLiteralLoop env args

def anyHasLiteralLoop (env : Environment) : List Term → Bool
  | [] => false
  | t :: ts => t.hasLiteralLoop env || anyHasLiteralLoop env ts

end

theorem hasLiteralLoop_of_mem {env : Environment} {t : Term} {ts : List Term} (ht : t ∈ ts)
    (h : anyHasLiteralLoop env ts = false) : t.hasLiteralLoop env = false := by
  induction ts with
  | nil => cases ht
  | cons s ts ih =>
    rw [anyHasLiteralLoop, Bool.or_eq_false_iff] at h
    rcases List.mem_cons.1 ht with rfl | ht
    · exact h.1
    · exact ih ht h.2

/-- The laws of powers that simplification relies on. -/
structure PowerLaws : Prop where
  one : ∀ x, Float.pow x 1.0 = x
  zero : ∀ x z, (z == 0.0) = true → Float.pow x z = 1.0

section

variable {frame : Frame} {t s : Term} {env now now' : Environment}

theorem Evaluates.hasLiteralLoop (h : Evaluates frame t now s now')
    (hno : t.hasLiteralLoop env = false) : s.hasLiteralLoop env = false := by
  cases h with
  | operand => exact hno
  | argument ht => exact hasLiteralLoop_of_mem ht hno
  | left | right | condition | yes | no | lower | upper | body =>
    simp only [Term.hasLiteralLoop, Bool.or_eq_false_iff] at hno
    simp only [hno]

theorem Visits.hasLiteralLoop (h : Visits frame t now s now') :
    t.hasLiteralLoop env = false → s.hasLiteralLoop env = false := by
  induction h with
  | self => exact id
  | step hstep _ ih => exact fun hno => ih (hstep.hasLiteralLoop hno)

theorem Evaluates.simplify_eq (h : Evaluates frame t now s now') (u : Term) :
    u.simplify now' = u.simplify now := by
  cases h with
  | body => exact simplify_setValue now _ _ u
  | _ => rfl

theorem Visits.simplify_eq (h : Visits frame t now s now') (u : Term) :
    u.simplify now' = u.simplify now := by
  induction h with
  | self => rfl
  | step hstep _ ih => rw [ih, hstep.simplify_eq u]

theorem PowerLaws.steady (laws : PowerLaws) (a b : Term) :
    Steady frame env (binary .power a b) :=
  fun _ x _ => ⟨fun _ => laws.one x, fun z _ hz => laws.zero x z hz⟩

theorem loopStays_of_not_literal {kind : Fold} {a : Address} {lower upper body : Term}
    (h : (loop kind a lower upper body).hasLiteralLoop env = false) :
    LoopStays kind (lower.simplify env) (upper.simplify env) (body.simplify env) := by
  intro lo hi x range hlo hhi hx _
  rw [hasLiteralLoop, hlo, hhi, hx] at h
  cases h

theorem steady_of_exact (chainless : ∀ op ∈ [BinaryOp.add, .sub, .mul],
      Node.op (.binary op) ∉ t.encode.nodes) (noLiterals : t.hasLiteralLoop env = false)
    (powers : ∀ a b now, Visits frame t env (binary .power a b) now →
      Steady frame now (binary .power a b)) (hs : Visits frame t env s now) :
    Steady frame now s := by
  cases s with
  | literal | ref | arg | unary | branch | call => trivial
  | binary op a b =>
    have hnode : Node.op (.binary op) ∈ t.encode.nodes := hs.mem_nodes (by simp [nodes_binary])
    cases op with
    | add => exact absurd hnode (chainless .add (by simp))
    | sub => exact absurd hnode (chainless .sub (by simp))
    | mul => exact absurd hnode (chainless .mul (by simp))
    | power => exact powers a b now hs
    | _ => exact fun _ => trivial
  | loop kind a lower upper body =>
    rw [Steady, hs.simplify_eq, hs.simplify_eq, hs.simplify_eq]
    exact loopStays_of_not_literal (hs.hasLiteralLoop noLiterals)

end

/-- **Simplification is exact but for chains and literal loops.** An expression without addition,
subtraction and multiplication and without a loop of which only literals are left gives, simplified,
the value that it gives as it stands, in every frame and environment in which it has one. Of the powers
nothing is needed but the laws for the exponents one and zero, and these only where a power is
evaluated on the way and its exponent becomes one of the two. -/
theorem simplify_exact (e : Expression) (env : Environment) (valid : e.check = .ok ())
    (chainless : ∀ op ∈ [BinaryOp.add, .sub, .mul], Node.op (.binary op) ∉ e.nodes) :
    ∃ t : Term, t.Fits ∧ e = t.encode ∧ (t.hasLiteralLoop env = false →
      ∀ (frame : Frame) (v : Float), e.Gives frame env v →
        (PowerLaws → (e.simplify env).Gives frame env v) ∧
        ((∀ a b now, Visits frame t env (binary .power a b) now →
            Steady frame now (binary .power a b)) →
          (e.simplify env).Gives frame env v)) := by
  obtain ⟨t, fits, rfl⟩ := check_eq_ok_iff.1 valid
  refine ⟨t, fits, rfl, fun noLiterals frame v hv => ?_⟩
  rw [gives_encode fits] at hv
  have hexact (powers : ∀ a b now, Visits frame t env (binary .power a b) now →
      Steady frame now (binary .power a b)) : (t.encode.simplify env).Gives frame env v :=
    (gives_simplify fits).2 (keepsValue_of_steady t env
      (fun s now hs => steady_of_exact chainless noLiterals powers hs) v hv)
  exact ⟨fun laws => hexact fun a b _ _ => laws.steady a b, hexact⟩

end

open Series

/-- The sum over `i` from 1 to `n / 1` of `i % 3` behind two negations, in a branch that a call with a
closed body decides; `n` is 2. -/
def remainderSum : Term × Environment :=
  (loop .sum ⟨0⟩ (const 1.0) (binary .div (ref ⟨1⟩) (const 1.0))
    (branch (call ⟨0⟩ [ref ⟨0⟩])
      (unary .neg (unary .neg (binary .mod (ref ⟨0⟩) (const 3.0)))) (const 5.0)),
    ⟨#[⟨some "i", 7.0⟩, ⟨some "n", 2.0⟩], #[⟨⟨"f", 1, Expression.const 1.0⟩, true⟩]⟩)

theorem simplify_exact_remainderSum :
    remainderSum.1.encode.check = .ok () ∧
    (∀ op ∈ [BinaryOp.add, .sub, .mul], Node.op (.binary op) ∉ remainderSum.1.encode.nodes) ∧
    remainderSum.1.encode.Gives [] remainderSum.2 3.0 ∧
    remainderSum.1.encode.simplify remainderSum.2
      = (loop .sum ⟨0⟩ (const 1.0) (ref ⟨1⟩) (binary .mod (ref ⟨0⟩) (const 3.0))).encode ∧
    (remainderSum.1.encode.simplify remainderSum.2).Gives [] remainderSum.2 3.0 := by
  have fits : remainderSum.1.Fits := by simp [remainderSum, Fits, FitsAll, size, sizeAll, UInt32.size]
  have chainless : ∀ op ∈ [BinaryOp.add, .sub, .mul],
      Node.op (.binary op) ∉ remainderSum.1.encode.nodes := by decide +kernel
  have powerless : Node.op (.binary .power) ∉ remainderSum.1.encode.nodes := by decide +kernel
  have hvalue : remainderSum.1.encode.Gives [] remainderSum.2 3.0 :=
    (gives_encode fits).2 ⟨1, by decide +kernel⟩
  refine ⟨check_encode fits, chainless, hvalue, by decide +kernel, ?_⟩
  obtain ⟨t, fits', ht, h⟩ :=
    simplify_exact remainderSum.1.encode remainderSum.2 (check_encode fits) chainless
  obtain rfl := eq_of_encode_eq fits' ht
  refine (h (by decide +kernel) [] 3.0 hvalue).2 fun a b now hs => ?_
  exact absurd (hs.mem_nodes (by simp [nodes_binary])) powerless

end Term

end PrefixCalculus
