import PrefixCalculus.Proofs.ClosedValue
import PrefixCalculus.Proofs.DoubleArithmetic
import PrefixCalculus.Proofs.SimplifiedForm
set_option autoImplicit false

/-!
The value of one reduction. Literals fold, double negations go, neutral operands of subtraction and
division are dropped and closed calls are decided without a change of value. What may change it: a
chain, whose operands are joined in another order and whose literals are joined among themselves; the
sign of a zero that is subtracted or subtracted from; the powers of one and zero; a loop with a literal
body, which is a product or a power instead. Main statements: for every reduction, it keeps the value
exactly if the numbers say so.
-/

namespace PrefixCalculus

variable [SpecialFunctions]

@[simp] theorem Literal.value_apply (op : UnaryOp) (x : Literal) :
    (x.apply op).value = op.apply x.value := by
  by_cases hop : op = .neg
  · rw [hop, Literal.apply, if_pos rfl, UnaryOp.apply]
    cases x with
    | negativeNaN => decide
    | number x =>
      cases hnan : x.isNaN with
      | true =>
        rw [Double.eq_nan_of_isNaN hnan]
        decide
      | false => rw [Literal.negate, hnan]; rfl
  · rw [Literal.apply, if_neg hop]
    rfl

namespace Term

section

variable {frame : Frame} {env : Environment} {v : Float}

/-! Operands -/

theorem exists_haveValues {ts : List Term} (h : ∀ t ∈ ts, ∃ x, t.HasValue frame env x) :
    ∃ xs, HaveValues ts frame env xs := by
  induction ts with
  | nil => exact ⟨[], .nil⟩
  | cons t ts ih =>
    obtain ⟨x, hx⟩ := h t (by simp)
    obtain ⟨xs, hxs⟩ := ih fun s hs => h s (by simp [hs])
    exact ⟨x :: xs, .cons hx hxs⟩

theorem exists_haveValues_others {op : BinaryOp} {a b : Term}
    (h : (binary op a b).HasValue frame env v) : ∃ xs, HaveValues (others op a b) frame env xs := by
  obtain ⟨x, hx, y, hy, -⟩ := hasValue_binary.1 h
  have hchain : ∀ t : Term, (∃ x, t.HasValue frame env x) →
      ∀ s ∈ chain op t, ∃ x, s.HasValue frame env x := by
    refine forall_mem_chain fun a b h => ?_
    obtain ⟨v, h⟩ := h
    obtain ⟨x, hx, y, hy, -⟩ := hasValue_binary.1 h
    exact ⟨⟨x, hx⟩, y, hy⟩
  refine exists_haveValues fun s hs => ?_
  rcases List.mem_append.1 (List.mem_filter.1 hs).1 with hs | hs
  · exact hchain a ⟨x, hx⟩ s hs
  · exact hchain b ⟨y, hy⟩ s hs

/-! Chains -/

def mergedValue (op : BinaryOp) (literals : List Float) : List Float → Float
  | [] => mergedLiteral op literals
  | x :: xs =>
    if op = .mul && mergedLiteral op literals == 0.0 then 0.0
    else if (mergedLiteral op literals).isNaN then nan
    else if literals.isEmpty || mergedLiteral op literals == chainIdentity op then xs.foldl op.apply x
    else if op = .mul then op.apply (mergedLiteral op literals) (xs.foldl op.apply x)
    else op.apply (xs.foldl op.apply x) (mergedLiteral op literals)

theorem hasValue_joinChain {op : BinaryOp} {rest : List Term} {xs : List Float}
    (h : HaveValues rest frame env xs) : ∀ {first : Term} {x : Float}, first.HasValue frame env x →
      (joinChain op first rest).HasValue frame env (xs.foldl op.apply x) := by
  induction h with
  | nil => exact fun hx => hx
  | cons hy _ ih =>
    intro first x hx
    exact ih (hasValue_binary.2 ⟨x, hx, _, hy, rfl⟩)

theorem hasValue_mergeChain {op : BinaryOp} {a b : Term} {xs : List Float}
    (h : HaveValues (others op a b) frame env xs) :
    (mergeChain op a b).HasValue frame env (mergedValue op (literals op a b) xs) := by
  rw [mergeChain_eq]
  cases hothers : others op a b with
  | nil =>
    rw [hothers] at h
    cases h
    exact hasValue_const.2 rfl
  | cons first rest =>
    rw [hothers] at h
    cases h with
    | @cons _ x _ xs hx hxs =>
      have hjoined : (joinChain op first rest).HasValue frame env (xs.foldl op.apply x) :=
        hasValue_joinChain hxs hx
      simp only [mergedValue]
      split
      · exact hasValue_const.2 rfl
      · split
        · exact hasValue_const.2 rfl
        · split
          · exact hjoined
          · unfold placeLiteral
            split
            · exact hasValue_binary.2 ⟨_, hasValue_const.2 rfl, _, hjoined, rfl⟩
            · exact hasValue_binary.2 ⟨_, hjoined, _, hasValue_const.2 rfl, rfl⟩

theorem mergeChain_iff {op : BinaryOp} {a b : Term} (hv : (binary op a b).HasValue frame env v) :
    (mergeChain op a b).HasValue frame env v ↔
      ∀ xs w, HaveValues (others op a b) frame env xs → (binary op a b).HasValue frame env w →
        mergedValue op (literals op a b) xs = w := by
  constructor
  · intro h xs w hxs hw
    rw [hasValue_unique (hasValue_mergeChain hxs) h, hasValue_unique hw hv]
  · intro h
    obtain ⟨xs, hxs⟩ := exists_haveValues_others hv
    have hmerged := hasValue_mergeChain hxs
    rwa [h xs v hxs hv] at hmerged

/-! One operator -/

theorem sameValues_reduceUnary (op : UnaryOp) (t : Term) :
    SameValues (reduceUnary op t) (unary op t) := by
  intro frame env v
  unfold reduceUnary
  split
  · simp [hasValue_unary]
  · split
    · rename_i inner hop
      subst hop
      simp [hasValue_unary, UnaryOp.apply]
    · exact Iff.rfl
  · exact Iff.rfl

omit [SpecialFunctions] in
theorem isConst_iff {z : Float} {t : Term} :
    t.isConst z = true ↔ ∃ x, t = const x ∧ (x == z) = true := by
  cases t with
  | literal x =>
    cases x with
    | number x => simp [isConst]
    | negativeNaN => simp [isConst, Literal.value, Double.nan_beq]
  | _ => simp [isConst]

/-- The operators whose reductions look at literals only never change a value. -/
theorem sameValues_reduceBinary {op : BinaryOp} (hop : op ∉ [.add, .mul, .sub, .power])
    (a b : Term) : SameValues (reduceBinary op a b) (binary op a b) := by
  intro frame env v
  unfold reduceBinary
  split
  · rename_i hx hy
    obtain ⟨x, rfl, rfl⟩ := constant?_eq_some.1 hx
    obtain ⟨y, rfl, rfl⟩ := constant?_eq_some.1 hy
    simp [hasValue_binary]
  · split
    · simp at hop
    · simp at hop
    · simp at hop
    · split
      · rename_i hone
        obtain ⟨x, rfl, hx⟩ := isConst_iff.1 hone
        obtain rfl := Double.eq_of_beq_of_ne_zero hx (by decide) (by decide)
        simp [hasValue_binary, BinaryOp.apply, BinaryOp.isLogical, BinaryOp.compute]
      · exact Iff.rfl
    · simp at hop
    · exact Iff.rfl

/-- Where the operator is reduced on two terms, the numbers are such that its value stays. -/
def Stays (op : BinaryOp) (a b : Term) (frame : Frame) (env : Environment) : Prop :=
  (∀ x y, a.constant? = some x → b.constant? = some y → False) →
  match op with
  | .add | .mul =>
    ∀ xs w, HaveValues (others op a b) frame env xs → (binary op a b).HasValue frame env w →
      mergedValue op (literals op a b) xs = w
  | .sub =>
    (b = const (-0.0) → ¬ a.HasValue frame env (-0.0)) ∧
      (a = const 0.0 → ¬ b.HasValue frame env 0.0)
  | .power =>
    ∀ x, a.HasValue frame env x →
      (b = const 1.0 → Float.pow x 1.0 = x) ∧
        ∀ z, b = const z → (z == 0.0) = true → Float.pow x z = 1.0
  | _ => True

theorem not_hasValue_iff {t : Term} {x z : Float} (hx : t.HasValue frame env x) :
    ¬ t.HasValue frame env z ↔ x ≠ z :=
  not_congr ⟨fun h => hasValue_unique hx h, fun h => by rwa [← h]⟩

theorem reduceSub_iff {a b : Term}
    (hopen : ∀ x y, a.constant? = some x → b.constant? = some y → False)
    (hv : (binary .sub a b).HasValue frame env v) :
    (if b.isConst 0.0 then a
      else if a.isConst 0.0 then reduceUnary .neg b
      else binary .sub a b).HasValue frame env v ↔
      (b = const (-0.0) → ¬ a.HasValue frame env (-0.0)) ∧
        (a = const 0.0 → ¬ b.HasValue frame env 0.0) := by
  obtain ⟨x, hx, y, hy, rfl⟩ := hasValue_binary.1 hv
  change HasValue (ite _ _ _) frame env (x - y) ↔ _
  rw [not_hasValue_iff hx, not_hasValue_iff hy]
  by_cases hb : b.isConst 0.0
  · obtain ⟨z, rfl, hz⟩ := isConst_iff.1 hb
    obtain rfl := hasValue_const.1 hy
    have ha : a ≠ const 0.0 := fun h => hopen 0.0 y (by rw [h]; rfl) rfl
    have hkept : a.HasValue frame env (x - y) ↔ x - y = x :=
      ⟨fun h => hasValue_unique h hx, fun h => by rwa [h]⟩
    rw [if_pos hb, hkept, Double.sub_eq_self_iff hz, const_inj]
    exact (and_iff_left fun h => absurd h ha).symm
  · rw [if_neg hb]
    have hright : b ≠ const (-0.0) := fun h => hb (isConst_iff.2 ⟨_, h, by decide⟩)
    rw [and_iff_right fun h => absurd h hright]
    by_cases ha : a.isConst 0.0
    · obtain ⟨z, rfl, hz⟩ := isConst_iff.1 ha
      obtain rfl := hasValue_const.1 hx
      have hkept : (reduceUnary .neg b).HasValue frame env (x - y) ↔ x - y = -y := by
        rw [sameValues_reduceUnary .neg b frame env, hasValue_unary]
        constructor
        · rintro ⟨y', hy', h⟩
          rw [h, hasValue_unique hy hy']
          rfl
        · exact fun h => ⟨y, hy, h⟩
      rw [if_pos ha, hkept, Double.sub_eq_neg_iff hz, const_inj]
    · rw [if_neg ha]
      exact iff_of_true hv fun h => absurd (isConst_iff.2 ⟨_, h, by decide⟩) ha

theorem reducePower_iff {a b : Term} (hv : (binary .power a b).HasValue frame env v) :
    (if b.isConst 1.0 then a
      else if b.isConst 0.0 then const 1.0
      else binary .power a b).HasValue frame env v ↔
      ∀ x, a.HasValue frame env x →
        (b = const 1.0 → Float.pow x 1.0 = x) ∧
          ∀ z, b = const z → (z == 0.0) = true → Float.pow x z = 1.0 := by
  obtain ⟨x, hx, y, hy, rfl⟩ := hasValue_binary.1 hv
  change HasValue (ite _ _ _) frame env (Float.pow x y) ↔ _
  have hforall : ∀ P : Float → Prop, (∀ x, a.HasValue frame env x → P x) ↔ P x :=
    fun P => ⟨fun h => h x hx, fun h x' hx' => by rwa [hasValue_unique hx' hx]⟩
  rw [hforall]
  by_cases hone : b.isConst 1.0
  · obtain ⟨z, rfl, hz⟩ := isConst_iff.1 hone
    obtain rfl := hasValue_const.1 hy
    obtain rfl := Double.eq_of_beq_of_ne_zero hz (by decide) (by decide)
    rw [if_pos hone]
    constructor
    · intro h
      refine ⟨fun _ => hasValue_unique h hx, fun z hz hzero => ?_⟩
      rw [← const_inj.1 hz] at hzero
      exact absurd hzero (by decide)
    · intro h
      rwa [h.1 rfl]
  · rw [if_neg hone]
    have hb : b ≠ const 1.0 := fun h => hone (isConst_iff.2 ⟨_, h, by decide⟩)
    by_cases hzero : b.isConst 0.0
    · obtain ⟨z, rfl, hz⟩ := isConst_iff.1 hzero
      obtain rfl := hasValue_const.1 hy
      rw [if_pos hzero, hasValue_const]
      constructor
      · intro h
        refine ⟨fun h => absurd h hb, fun z hz _ => ?_⟩
        rwa [← const_inj.1 hz]
      · intro h
        exact h.2 y rfl hz
    · rw [if_neg hzero]
      refine iff_of_true hv ⟨fun h => absurd h hb, fun z hz hzero' => ?_⟩
      exact absurd (isConst_iff.2 ⟨z, hz, hzero'⟩) hzero

/-- The reduction of an operator keeps the value exactly if the numbers say so. -/
theorem reduceBinary_iff {op : BinaryOp} {a b : Term} (hv : (binary op a b).HasValue frame env v) :
    (reduceBinary op a b).HasValue frame env v ↔ Stays op a b frame env := by
  by_cases hop : op ∉ [.add, .mul, .sub, .power]
  · rw [sameValues_reduceBinary hop a b frame env v]
    refine iff_of_true hv fun _ => ?_
    cases op <;> trivial
  · unfold reduceBinary Stays
    split
    · rename_i x y hx hy
      refine iff_of_true ?_ fun hopen => (hopen x y hx hy).elim
      obtain ⟨x, rfl, rfl⟩ := constant?_eq_some.1 hx
      obtain ⟨y, rfl, rfl⟩ := constant?_eq_some.1 hy
      simpa [hasValue_binary] using hv
    · rename_i hopen
      refine Iff.trans ?_ (forall_prop_of_true hopen).symm
      cases op with
      | add => exact mergeChain_iff hv
      | mul => exact mergeChain_iff hv
      | sub => exact reduceSub_iff hopen hv
      | power => exact reducePower_iff hv
      | _ => simp at hop

/-! Loops and calls -/

/-- Where a loop over a literal is reduced, the literal joined as often as the loop visits it is what
the loop becomes. -/
def LoopStays (kind : Fold) (lower upper body : Term) : Prop :=
  ∀ lo hi x range, lower.constant? = some lo → upper.constant? = some hi →
    body.constant? = some x → LoopRange.ofBounds? lo hi = some range →
    range.toList.foldl (fun acc _ => kind.join acc x) kind.identity = constantLoop kind lo hi x

theorem reduceLoop_iff {kind : Fold} {address : Address} {lower upper body : Term}
    (hv : (loop kind address lower upper body).HasValue frame env v) :
    (reduceLoop kind address lower upper body).HasValue frame env v ↔
      LoopStays kind lower upper body := by
  unfold reduceLoop
  split
  · rename_i hlo hhi hx
    obtain ⟨lo, rfl, rfl⟩ := constant?_eq_some.1 hlo
    obtain ⟨hi, rfl, rfl⟩ := constant?_eq_some.1 hhi
    obtain ⟨x, rfl, rfl⟩ := constant?_eq_some.1 hx
    obtain ⟨lo', hlo', hi', hhi', hv⟩ := hasValue_loop.1 hv
    rw [hasValue_literal.1 hlo', hasValue_literal.1 hhi'] at hv
    simp only [hasValue_literal] at hv ⊢
    cases hrange : LoopRange.ofBounds? lo.value hi.value with
    | none =>
      rw [hrange] at hv
      refine iff_of_true ?_ fun lo' hi' x' range hlo hhi _ hsome => ?_
      · rw [Literal.value_number, constantLoop, hrange]
        exact hv
      · rw [← Option.some.inj hlo, ← Option.some.inj hhi, hrange] at hsome
        cases hsome
    | some range =>
      rw [hrange] at hv
      rw [Joins.const_iff.1 hv]
      constructor
      · intro h lo' hi' x' range' hlo hhi hx hsome
        rw [← Option.some.inj hlo, ← Option.some.inj hhi, hrange] at hsome
        rw [← Option.some.inj hlo, ← Option.some.inj hhi, ← Option.some.inj hx,
          ← Option.some.inj hsome]
        exact h
      · exact fun h => h _ _ _ range rfl rfl rfl hrange
  · rename_i hopen
    refine iff_of_true hv fun lo hi x range hlo hhi hx _ => ?_
    exact (hopen lo hi x hlo hhi hx).elim

end

end Term

end PrefixCalculus
