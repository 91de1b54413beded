import PrefixCalculus.Proofs.Denotation
set_option autoImplicit false

/-!
Which terms the evaluation of a term comes to, and in which environments: of a branch only the side
that is taken, the body of a loop once for each number, and no body of a function. Main statement: what
is visited on the way to a value has a value.
-/

namespace PrefixCalculus

namespace Term

variable [SpecialFunctions]

/-- The value of the first term, in its environment, is made from that of the second in its own. -/
inductive Evaluates (frame : Frame) : Term → Environment → Term → Environment → Prop
  | operand {op : UnaryOp} {t : Term} {env : Environment} :
    Evaluates frame (unary op t) env t env
  | left {op : BinaryOp} {a b : Term} {env : Environment} :
    Evaluates frame (binary op a b) env a env
  | right {op : BinaryOp} {a b : Term} {env : Environment} :
    Evaluates frame (binary op a b) env b env
  | condition {c a b : Term} {env : Environment} :
    Evaluates frame (branch c a b) env c env
  | yes {c a b : Term} {env : Environment} {x : Float} (hx : c.HasValue frame env x)
    (hnan : ¬ x.isNaN = true) (hyes : (x != 0.0) = true) : Evaluates frame (branch c a b) env a env
  | no {c a b : Term} {env : Environment} {x : Float} (hx : c.HasValue frame env x)
    (hnan : ¬ x.isNaN = true) (hno : ¬ (x != 0.0) = true) : Evaluates frame (branch c a b) env b env
  | lower {kind : Fold} {address : Address} {lower upper body : Term} {env : Environment} :
    Evaluates frame (loop kind address lower upper body) env lower env
  | upper {kind : Fold} {address : Address} {lower upper body : Term} {env : Environment} :
    Evaluates frame (loop kind address lower upper body) env upper env
  | body {kind : Fold} {address : Address} {lower upper body : Term} {env : Environment}
    {lo hi : Float} {range : LoopRange} {i : Int64} (hlo : lower.HasValue frame env lo)
    (hhi : upper.HasValue frame env hi) (hrange : LoopRange.ofBounds? lo hi = some range)
    (hmem : i ∈ range.toList) :
    Evaluates frame (loop kind address lower upper body) env body
      (env.setValue address (ofPosition i))
  | argument {f : FunctionId} {args : List Term} {t : Term} {env : Environment} (ht : t ∈ args) :
    Evaluates frame (call f args) env t env

inductive Visits (frame : Frame) : Term → Environment → Term → Environment → Prop
  | self (t : Term) (env : Environment) : Visits frame t env t env
  | step {t s u : Term} {env env' env'' : Environment} (h : Evaluates frame t env s env')
    (h' : Visits frame s env' u env'') : Visits frame t env u env''

section

variable {frame : Frame}

theorem Visits.trans {t s u : Term} {env env' env'' : Environment} (h : Visits frame t env s env')
    (h' : Visits frame s env' u env'') : Visits frame t env u env'' := by
  induction h with
  | self => exact h'
  | step hstep _ ih => exact .step hstep (ih h')

theorem exists_value_of_mem {ts : List Term} {env : Environment} {values : List Float}
    (h : HaveValues ts frame env values) : ∀ t ∈ ts, ∃ x, t.HasValue frame env x := by
  induction h with
  | nil => simp
  | cons hx _ ih =>
    intro t ht
    rcases List.mem_cons.1 ht with rfl | ht
    · exact ⟨_, hx⟩
    · exact ih t ht

theorem Evaluates.exists_value {t s : Term} {env env' : Environment} {v : Float}
    (h : Evaluates frame t env s env') (hv : t.HasValue frame env v) :
    ∃ w, s.HasValue frame env' w := by
  cases h with
  | operand =>
    obtain ⟨x, hx, -⟩ := hasValue_unary.1 hv
    exact ⟨x, hx⟩
  | left =>
    obtain ⟨x, hx, -⟩ := hasValue_binary.1 hv
    exact ⟨x, hx⟩
  | right =>
    obtain ⟨_, -, y, hy, -⟩ := hasValue_binary.1 hv
    exact ⟨y, hy⟩
  | condition =>
    obtain ⟨x, hx, -⟩ := hasValue_branch.1 hv
    exact ⟨x, hx⟩
  | yes hx hnan hyes =>
    obtain ⟨x', hx', hv⟩ := hasValue_branch.1 hv
    rw [hasValue_unique hx' hx, if_neg hnan, if_pos hyes] at hv
    exact ⟨v, hv⟩
  | no hx hnan hno =>
    obtain ⟨x', hx', hv⟩ := hasValue_branch.1 hv
    rw [hasValue_unique hx' hx, if_neg hnan, if_neg hno] at hv
    exact ⟨v, hv⟩
  | lower =>
    obtain ⟨lo, hlo, -⟩ := hasValue_loop.1 hv
    exact ⟨lo, hlo⟩
  | upper =>
    obtain ⟨_, -, hi, hhi, -⟩ := hasValue_loop.1 hv
    exact ⟨hi, hhi⟩
  | body hlo hhi hrange hmem =>
    obtain ⟨lo', hlo', hi', hhi', hv⟩ := hasValue_loop.1 hv
    rw [hasValue_unique hlo' hlo, hasValue_unique hhi' hhi, hrange] at hv
    exact Joins.exists_value hv _ hmem
  | argument ht =>
    obtain ⟨values, hvalues, -⟩ := hasValue_call.1 hv
    exact exists_value_of_mem hvalues _ ht

theorem Visits.exists_value {t s : Term} {env env' : Environment} (h : Visits frame t env s env') :
    (∃ v, t.HasValue frame env v) → ∃ w, s.HasValue frame env' w := by
  induction h with
  | self => exact fun hv => hv
  | step hstep _ ih =>
    rintro ⟨v, hv⟩
    exact ih (hstep.exists_value hv)

theorem Evaluates.size_lt {t s : Term} {env env' : Environment} (h : Evaluates frame t env s env') :
    s.size < t.size := by
  cases h with
  | argument ht =>
    have := size_le_sizeAll ht
    simp only [size]
    omega
  | _ => simp only [size]; omega

/-- What is true of a term if it is true of all that is evaluated for it is true of every term. -/
@[elab_as_elim] theorem Evaluates.induction (frame : Frame) {motive : Term → Environment → Prop}
    (step : ∀ t env, (∀ s env', Evaluates frame t env s env' → motive s env') → motive t env)
    (t : Term) (env : Environment) : motive t env := by
  -- what is evaluated for a term is smaller, in whatever environment
  induction hsize : t.size using Nat.strongRecOn generalizing t env with
  | _ n ih => exact step t env fun s env' h => ih s.size (hsize ▸ h.size_lt) s env' rfl

theorem Evaluates.fits {t s : Term} {env env' : Environment}
    (h : Evaluates frame t env s env') (fits : t.Fits) : s.Fits := by
  cases h with
  | operand => exact fits
  | left => exact fits.1
  | right => exact fits.2
  | condition => exact fits.1
  | yes => exact fits.2.1
  | no => exact fits.2.2.1
  | lower => exact fits.1
  | upper => exact fits.2.1
  | body => exact fits.2.2.1
  | argument ht => exact (fitsAll_iff _).1 fits.1 _ ht

theorem Visits.fits {t s : Term} {env env' : Environment}
    (h : Visits frame t env s env') : t.Fits → s.Fits := by
  induction h with
  | self => exact fun fits => fits
  | step hstep _ ih => exact fun fits => ih (hstep.fits fits)

end

end Term

end PrefixCalculus
