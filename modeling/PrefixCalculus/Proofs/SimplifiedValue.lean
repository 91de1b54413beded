import PrefixCalculus.Numeric.Series
import PrefixCalculus.Proofs.ReducedValue
import PrefixCalculus.Proofs.Visits
set_option autoImplicit false

/-!
The value of a simplified term. Main statement: a simplified term has the value of the term if every
reduction that the evaluation meets keeps the value it is about, and this is so exactly if every term
that is evaluated on the way keeps its value.
-/

namespace PrefixCalculus

namespace Term

section

variable [SpecialFunctions]

section

variable {frame : Frame}

/-! Values of simplified terms -/

/-- The reduction at the head of the simplified term keeps the value. -/
def Steady (frame : Frame) (env : Environment) : Term → Prop
  | binary op a b => Stays op (a.simplify env) (b.simplify env) frame env
  | loop kind _ lower upper body =>
    LoopStays kind (lower.simplify env) (upper.simplify env) (body.simplify env)
  | _ => True

def KeepsValue (frame : Frame) (env : Environment) (t : Term) : Prop :=
  ∀ v, t.HasValue frame env v → (t.simplify env).HasValue frame env v

/-- A term with its parts simplified, before the reduction at its head. -/
def simplifyParts (env : Environment) : Term → Term
  | literal x => literal x
  | ref address => ref address
  | arg index => arg index
  | unary op t => unary op (t.simplify env)
  | binary op a b => binary op (a.simplify env) (b.simplify env)
  | branch c a b => branch (c.simplify env) (a.simplify env) (b.simplify env)
  | loop kind address lower upper body =>
    loop kind address (lower.simplify env) (upper.simplify env) (body.simplify env)
  | call f args => call f (args.map (simplify env))

theorem haveValues_simplify {ts : List Term} {env : Environment} {xs : List Float}
    (hxs : HaveValues ts frame env xs) :
    (∀ t ∈ ts, KeepsValue frame env t) → HaveValues (ts.map (simplify env)) frame env xs := by
  induction hxs with
  | nil => exact fun _ => .nil
  | cons hx _ ih =>
    intro h
    exact .cons (h _ (by simp) _ hx) (ih fun t ht => h t (by simp [ht]))

theorem hasValue_simplifyParts {t : Term} {env : Environment} {v : Float}
    (h : ∀ s env', Evaluates frame t env s env' → KeepsValue frame env' s)
    (hv : t.HasValue frame env v) : (t.simplifyParts env).HasValue frame env v := by
  cases t with
  | literal | ref | arg => exact hv
  | unary op t =>
    obtain ⟨x, hx, rfl⟩ := hasValue_unary.1 hv
    exact hasValue_unary.2 ⟨x, h _ _ .operand x hx, rfl⟩
  | binary op a b =>
    obtain ⟨x, hx, y, hy, rfl⟩ := hasValue_binary.1 hv
    exact hasValue_binary.2 ⟨x, h _ _ .left x hx, y, h _ _ .right y hy, rfl⟩
  | branch c a b =>
    obtain ⟨x, hx, hv⟩ := hasValue_branch.1 hv
    refine hasValue_branch.2 ⟨x, h _ _ .condition x hx, ?_⟩
    by_cases hnan : x.isNaN
    · rwa [if_pos hnan] at hv ⊢
    · rw [if_neg hnan] at hv ⊢
      by_cases hyes : x != 0.0
      · rw [if_pos hyes] at hv ⊢
        exact h _ _ (.yes hx hnan hyes) v hv
      · rw [if_neg hyes] at hv ⊢
        exact h _ _ (.no hx hnan hyes) v hv
  | loop kind address lower upper body =>
    obtain ⟨lo, hlo, hi, hhi, hv⟩ := hasValue_loop.1 hv
    refine hasValue_loop.2 ⟨lo, h _ _ .lower lo hlo, hi, h _ _ .upper hi hhi, ?_⟩
    cases hrange : LoopRange.ofBounds? lo hi with
    | none => rwa [hrange] at hv
    | some range =>
      rw [hrange] at hv
      refine Joins.mono (fun i hmem x hx => ?_) hv
      have hbody := h _ _ (.body hlo hhi hrange hmem) x hx
      rwa [simplify_setValue] at hbody
  | call f args =>
    obtain ⟨values, hvalues, hv⟩ := hasValue_call.1 hv
    exact hasValue_call.2 ⟨values, haveValues_simplify hvalues fun t ht => h _ _ (.argument ht), hv⟩

theorem sameValues_simplify_branch (env : Environment) (c a b : Term) :
    SameValues ((branch c a b).simplify env)
      (branch (c.simplify env) (a.simplify env) (b.simplify env)) := by
  intro frame now v
  rw [simplify]
  split
  · rename_i x hx
    rw [hx, hasValue_branch]
    simp only [hasValue_literal, exists_eq_left]
    split
    · exact hasValue_const
    · split <;> exact Iff.rfl
  · exact Iff.rfl

theorem hasValue_reduceCall {f : FunctionId} {args : List Term} {env : Environment} {v : Float}
    (hv : (call f args).HasValue frame env v) : (reduceCall env f args).HasValue frame env v := by
  unfold reduceCall
  split
  · rename_i value hclosed
    obtain ⟨values, hvalues, hv⟩ := hasValue_call.1 hv
    rw [List.Forall₂.length_eq hvalues] at hclosed
    exact hasValue_const.2 (eq_of_enters_closed hclosed hv)
  · exact hv

/-- Where the parts are simplified without a change of value, the reduction at the head decides. -/
theorem hasValue_simplify_iff {t : Term} {env : Environment} {v : Float}
    (hv : (t.simplifyParts env).HasValue frame env v) :
    (t.simplify env).HasValue frame env v ↔ Steady frame env t := by
  cases t with
  | literal | ref | arg => exact iff_of_true hv trivial
  | unary op t => exact iff_of_true ((sameValues_reduceUnary op _ frame env v).2 hv) trivial
  | binary op a b => exact reduceBinary_iff hv
  | branch c a b => exact iff_of_true ((sameValues_simplify_branch env c a b frame env v).2 hv) trivial
  | loop kind address lower upper body => exact reduceLoop_iff hv
  | call f args =>
    refine iff_of_true ?_ trivial
    rw [simplify, simplifyAll_eq_map]
    exact hasValue_reduceCall hv

theorem keepsValue_of_steady (t : Term) (env : Environment) :
    (∀ s env', Visits frame t env s env' → Steady frame env' s) → KeepsValue frame env t := by
  induction t, env using Evaluates.induction frame with
  | step t env ih =>
    intro hsteady v hv
    have hparts : (t.simplifyParts env).HasValue frame env v :=
      hasValue_simplifyParts (fun s env' hs => ih s env' hs fun u env'' hu =>
        hsteady u env'' (.step hs hu)) hv
    exact (hasValue_simplify_iff hparts).2 (hsteady t env (.self t env))

theorem steady_iff_keepsValue {t : Term} {env : Environment} {v : Float}
    (hv : t.HasValue frame env v) :
    (∀ s env', Visits frame t env s env' → Steady frame env' s) ↔
      ∀ s env', Visits frame t env s env' → KeepsValue frame env' s := by
  constructor
  · intro h s env' hs
    exact keepsValue_of_steady s env' fun u env'' hu => h u env'' (hs.trans hu)
  · intro h s env' hs
    -- what is evaluated has a value, and with it the parts below do
    obtain ⟨w, hw⟩ := hs.exists_value ⟨v, hv⟩
    have hparts : (s.simplifyParts env').HasValue frame env' w :=
      hasValue_simplifyParts (fun u env'' hu => h u env'' (hs.trans (.step hu (.self u env'')))) hw
    exact (hasValue_simplify_iff hparts).1 (h s env' hs w hw)

/-! A term that is undefined wherever another has not the value -/

/-- One where the term has the value, NaN where it has another. -/
def probe (t : Term) (v : Float) : Term :=
  branch
    (binary .and (binary .eq t (const v))
      (binary .eq (binary .div (const 1.0) t) (const (1.0 / v))))
    (const 1.0) (const nan)

omit [SpecialFunctions] in
theorem fits_probe {t : Term} (h : t.Fits) (v : Float) : (probe t v).Fits :=
  ⟨⟨⟨h, trivial⟩, ⟨trivial, h⟩, trivial⟩, trivial, trivial, by decide, by decide⟩

theorem apply_and (x y : Float) :
    BinaryOp.apply .and x y = if x.isNaN || y.isNaN then nan else truth x * truth y :=
  rfl

theorem apply_eq_self {x : Float} (h : x.isNaN = false) : BinaryOp.apply .eq x x = 1.0 := by
  simp only [BinaryOp.apply, h, Bool.or_self, Bool.and_false, Bool.false_eq_true, if_false,
    BinaryOp.compute, Double.beq_self h, ofBool, if_true]

theorem apply_eq_cases (x y : Float) : BinaryOp.apply .eq x y = 1.0 ∧ (x == y) = true ∨
    BinaryOp.apply .eq x y = 0.0 ∨ BinaryOp.apply .eq x y = nan := by
  simp only [BinaryOp.apply, BinaryOp.compute, ofBool]
  split
  · exact .inr (.inr rfl)
  · cases x == y with
    | true => exact .inl ⟨rfl, rfl⟩
    | false => exact .inr (.inl rfl)

variable {t : Term} {env : Environment} {v : Float}

theorem hasValue_probe (hnan : v.isNaN = false) (h : t.HasValue frame env v) :
    (probe t v).HasValue frame env 1.0 := by
  have heq : (binary .eq t (const v)).HasValue frame env 1.0 :=
    hasValue_binary.2 ⟨v, h, v, hasValue_const.2 rfl, (apply_eq_self hnan).symm⟩
  have hrecip : (binary .eq (binary .div (const 1.0) t) (const (1.0 / v))).HasValue frame env 1.0 :=
    hasValue_binary.2 ⟨1.0 / v, hasValue_binary.2 ⟨1.0, hasValue_const.2 rfl, v, h, rfl⟩, 1.0 / v,
      hasValue_const.2 rfl, (apply_eq_self (Double.isNaN_recip hnan)).symm⟩
  refine hasValue_branch.2 ⟨1.0, hasValue_binary.2 ⟨1.0, heq, 1.0, hrecip, by rw [apply_and]; decide⟩, ?_⟩
  rw [if_neg (by decide), if_pos (by decide)]
  exact hasValue_const.2 rfl

theorem hasValue_of_probe {w : Float} (hw : w.isNaN = false)
    (h : (probe t v).HasValue frame env w) : t.HasValue frame env v := by
  obtain ⟨c, hc, h⟩ := hasValue_branch.1 h
  have hzero : c ≠ 0.0 := by
    rintro rfl
    rw [if_neg (by decide), if_neg (by decide)] at h
    rw [hasValue_const.1 h] at hw
    exact absurd hw (by decide)
  have hnan : c ≠ nan := by
    rintro rfl
    rw [if_pos (by decide)] at h
    rw [h] at hw
    exact absurd hw (by decide)
  obtain ⟨p, hp, q, hq, rfl⟩ := hasValue_binary.1 hc
  obtain ⟨x, hx, _, hv, rfl⟩ := hasValue_binary.1 hp
  obtain ⟨r, hr, _, hv', rfl⟩ := hasValue_binary.1 hq
  obtain ⟨_, hone, x', hx', rfl⟩ := hasValue_binary.1 hr
  rw [hasValue_const.1 hv, hasValue_const.1 hv', hasValue_const.1 hone, hasValue_unique hx' hx]
    at hzero hnan
  -- both comparisons have to hold, and where both numbers are zeros the second tells them apart
  rcases apply_eq_cases x v with ⟨hp, hbeq⟩ | hp | hp <;>
    rcases apply_eq_cases (BinaryOp.apply .div 1.0 x) (1.0 / v) with ⟨hq, hrecip⟩ | hq | hq <;>
    rw [hp, hq, apply_and] at hzero hnan
  · rwa [← Double.eq_of_beq_of_recip hbeq hrecip]
  all_goals first | exact absurd (by decide) hzero | exact absurd (by decide) hnan

theorem sameValues_simplify_probe (env : Environment) (t : Term) (v : Float) :
    SameValues ((probe t v).simplify env) (probe (t.simplify env) v) := by
  refine (sameValues_simplify_branch env _ _ _).trans (.branch ?_ (.refl _) (.refl _))
  refine (sameValues_reduceBinary (by simp) _ _).trans (.binary .and ?_ ?_)
  · exact sameValues_reduceBinary (by simp) _ _
  · refine (sameValues_reduceBinary (by simp) _ _).trans (.binary .eq ?_ (.refl _))
    exact sameValues_reduceBinary (by simp) _ _

end

/-! Simplified expressions -/

theorem gives_simplify {t : Term} (fits : t.Fits) {frame : Frame} {env : Environment} {v : Float} :
    (t.encode.simplify env).Gives frame env v ↔ (t.simplify env).HasValue frame env v := by
  rw [simplify_encode env fits, gives_encode (fits_simplify env fits)]

/-- The simplified expression gives what the expression gives, if every reduction that the evaluation
meets keeps its value. The condition can not be weakened: it holds exactly if every expression that is
evaluated on the way gives the same when it is simplified, and around one that does not there is an
expression with a value whose simplified form has none but NaN. -/
theorem simplify_gives (e : Expression) (env : Environment) (valid : e.check = .ok ()) :
    ∃ t : Term, t.Fits ∧ e = t.encode ∧ ∀ (frame : Frame) (v : Float), e.Gives frame env v →
      ((∀ s env', Visits frame t env s env' → Steady frame env' s) →
        (e.simplify env).Gives frame env v) ∧
      ((∀ s env', Visits frame t env s env' → Steady frame env' s) ↔
        ∀ s env' w, Visits frame t env s env' → s.encode.Gives frame env' w →
          (s.encode.simplify env').Gives frame env' w) ∧
      ∀ s env' w, Visits frame t env s env' → s.encode.Gives frame env' w → w.isNaN = false →
        (probe s w).encode.check = .ok () ∧ (probe s w).encode.Gives frame env' 1.0 ∧
          ((∃ x, ((probe s w).encode.simplify env').Gives frame env' x ∧ x.isNaN = false) ↔
            (s.encode.simplify env').Gives frame env' w) := by
  obtain ⟨t, fits, rfl⟩ := check_eq_ok_iff.1 valid
  refine ⟨t, fits, rfl, fun frame v hv => ?_⟩
  rw [gives_encode fits] at hv
  refine ⟨fun hsteady => ?_, ?_, fun s env' w hs hw hnan => ?_⟩
  · exact (gives_simplify fits).2 (keepsValue_of_steady t env hsteady v hv)
  · rw [steady_iff_keepsValue hv]
    constructor
    · intro h s env' w hs hw
      exact (gives_simplify (hs.fits fits)).2 (h s env' hs w ((gives_encode (hs.fits fits)).1 hw))
    · intro h s env' hs w hw
      exact (gives_simplify (hs.fits fits)).1 (h s env' w hs ((gives_encode (hs.fits fits)).2 hw))
  · have fits' := hs.fits fits
    have fitsProbe := fits_probe fits' w
    rw [gives_encode fits'] at hw
    refine ⟨check_encode fitsProbe, (gives_encode fitsProbe).2 (hasValue_probe hnan hw), ?_⟩
    rw [gives_simplify fits']
    simp only [gives_simplify fitsProbe, sameValues_simplify_probe env' s w frame env']
    constructor
    · rintro ⟨x, hx, hnan⟩
      exact hasValue_of_probe hnan hx
    · exact fun h => ⟨1.0, hasValue_probe hnan h, by decide⟩

end

open Series

/-- A loop over a chain with a closed call in it: the sum of `(i + f()) + 2` for `i` from one to two. -/
def countedSum : Term × Environment :=
  (loop .sum ⟨0⟩ (const 1.0) (const 2.0)
    (binary .add (binary .add (ref ⟨0⟩) (call ⟨0⟩ [])) (const 2.0)),
    ⟨#[⟨some "i", nan⟩], #[⟨⟨"f", 0, Expression.const 1.0⟩, true⟩]⟩)

theorem steady_countedSum : ∀ s env', Visits [] countedSum.1 countedSum.2 s env' →
    Steady [] env' s := by
  -- where nothing is evaluated, nothing but the term itself is visited
  have leaf : ∀ {t s : Term} {env env' : Environment}, Visits [] t env s env' →
      (∀ s env', ¬ Evaluates [] t env s env') → Steady [] env t → Steady [] env' s := by
    intro t s env env' hs hnone ht
    cases hs with
    | self => exact ht
    | step h => exact (hnone _ _ h).elim
  -- both sides of a reduction are evaluated
  have head : ∀ {t : Term} {env : Environment} (v : Float),
      (t.simplifyParts env).value 1 [] env = some v → (t.simplify env).value 1 [] env = some v →
        Steady [] env t :=
    fun v hparts h => (hasValue_simplify_iff (v := v) ⟨1, hparts⟩).1 ⟨1, h⟩
  intro s env' hs
  cases hs with
  | self => exact head 9.0 (by decide +kernel) (by decide +kernel)
  | step h hs =>
    cases h with
    | lower | upper => exact leaf hs (by rintro _ _ ⟨⟩) trivial
    | @body _ _ _ _ _ _ _ _ _ i hlo hhi hrange hmem =>
      obtain rfl := hasValue_const.1 hlo
      obtain rfl := hasValue_const.1 hhi
      have htwo : LoopRange.ofBounds? 1.0 2.0 = some ⟨1, 2, 1, 2⟩ := by decide +kernel
      obtain rfl := Option.some.inj (htwo.symm.trans hrange)
      have hi : i = 1 ∨ i = 2 := by
        have hlist : (⟨1, 2, 1, 2⟩ : LoopRange).toList = [1, 2] := by decide +kernel
        simpa [hlist] using hmem
      cases hs with
      | self =>
        rcases hi with rfl | rfl
        · exact head 4.0 (by decide +kernel) (by decide +kernel)
        · exact head 5.0 (by decide +kernel) (by decide +kernel)
      | step h hs =>
        cases h with
        | left =>
          cases hs with
          | self =>
            rcases hi with rfl | rfl
            · exact head 2.0 (by decide +kernel) (by decide +kernel)
            · exact head 3.0 (by decide +kernel) (by decide +kernel)
          | step h hs =>
            cases h with
            | left => exact leaf hs (by rintro _ _ ⟨⟩) trivial
            | right =>
              refine leaf hs ?_ trivial
              rintro _ _ (_ | _ | _ | _ | _ | _ | _ | _ | _ | ht)
              cases ht
        | right => exact leaf hs (by rintro _ _ ⟨⟩) trivial

theorem simplify_gives_countedSum :
    countedSum.1.encode.check = .ok () ∧ countedSum.1.encode.Gives [] countedSum.2 9.0 ∧
      (countedSum.1.encode.simplify countedSum.2).Gives [] countedSum.2 9.0 ∧
      ∃ x, ((probe countedSum.1 9.0).encode.simplify countedSum.2).Gives [] countedSum.2 x ∧
        x.isNaN = false := by
  have fits : countedSum.1.Fits := by simp [countedSum, Fits, FitsAll, size, sizeAll, UInt32.size]
  have hvalue : countedSum.1.encode.Gives [] countedSum.2 9.0 :=
    (gives_encode fits).2 ⟨1, by decide +kernel⟩
  refine ⟨check_encode fits, hvalue, ?_⟩
  obtain ⟨t, fits', ht, h⟩ := simplify_gives countedSum.1.encode countedSum.2 (check_encode fits)
  have heq : countedSum.1 = t := by
    have hdecode := decode_encode fits
    rw [ht, decode_encode fits'] at hdecode
    exact (Except.ok.inj hdecode).symm
  subst heq
  obtain ⟨hkept, -, hprobe⟩ := h [] 9.0 hvalue
  have hnine := hkept steady_countedSum
  exact ⟨hnine, (hprobe _ _ 9.0 (.self _ _) hvalue (by decide)).2.2.2 hnine⟩

def overflowing : Term × Environment :=
  (binary .mul (binary .mul (ref ⟨0⟩) (const 1e200)) (const 1e200), ⟨#[⟨some "x", 0.0⟩], #[]⟩)

/-- Simplification merges literals, and their product overflows where that with the variable does not. -/
theorem simplify_overflows :
    overflowing.1.encode.check = .ok () ∧ overflowing.1.encode.Gives [] overflowing.2 0.0 ∧
      ∀ v, (overflowing.1.encode.simplify overflowing.2).Gives [] overflowing.2 v →
        v.isNaN = true := by
  have fits : overflowing.1.Fits := by simp [overflowing, Fits]
  refine ⟨check_encode fits, (gives_encode fits).2 ⟨0, by decide +kernel⟩, fun v hv => ?_⟩
  rw [gives_simplify fits] at hv
  have hnan : (overflowing.1.simplify overflowing.2).HasValue [] overflowing.2 nan :=
    ⟨0, by decide +kernel⟩
  rw [hasValue_unique hv hnan]
  decide

end Term

end PrefixCalculus
