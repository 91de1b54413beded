import PrefixCalculus.Numeric.Series
import PrefixCalculus.Proofs.Visits
import PrefixCalculus.Substitution
import PrefixCalculus.Term.Occurrence
set_option autoImplicit false

/-!
Arguments in place of parameters. Where an argument is put below a loop it is evaluated with the
loop's variable rebound, while a call evaluates its arguments before the body. Main statement: the two
agree if no argument that the evaluation of the body comes to has another value there than outside.
-/

namespace PrefixCalculus

namespace Term

/-! Written out with arguments, a term is the term with arguments in it -/

theorem under_ofArgs (args : List Expression) (a : Address) :
    (Replacement.ofArgs args).under a = Replacement.ofArgs args := by
  simp [Replacement.ofArgs, Replacement.under, Replacement.keep]

mutual

theorem encodeWith_ofArgs (args : List Term) :
    ∀ t : Term, t.encodeWith (Replacement.ofArgs (args.map encode)) = (t.instantiate args).encode
  | literal _ => rfl
  | ref _ => rfl
  | arg i => by
    simp only [encodeWith, Replacement.ofArgs, instantiate, List.getElem?_map]
    cases args[i.toNat]? <;> rfl
  | unary op t => by simp only [encodeWith, instantiate, encode, encodeWith_ofArgs args t]
  | binary op a b => by
    simp only [encodeWith, instantiate, encode, encodeWith_ofArgs args a, encodeWith_ofArgs args b]
  | branch c a b => by
    simp only [encodeWith, instantiate, encode, encodeWith_ofArgs args c, encodeWith_ofArgs args a,
      encodeWith_ofArgs args b]
  | loop kind v lower upper body => by
    simp only [encodeWith, instantiate, encode, under_ofArgs, encodeWith_ofArgs args lower,
      encodeWith_ofArgs args upper, encodeWith_ofArgs args body]
  | call f ts => by
    rw [instantiate, encode, ← encodeAllWith_ofArgs args ts]
    rfl

theorem encodeAllWith_ofArgs (args : List Term) : ∀ ts : List Term,
    encodeAllWith (Replacement.ofArgs (args.map encode)) ts = encodeAll (instantiateAll args ts)
  | [] => rfl
  | t :: ts => by
    simp only [encodeAllWith, instantiateAll, encodeAll, encodeWith_ofArgs args t,
      encodeAllWith_ofArgs args ts]

end

theorem instantiate_encode {t : Term} (fits : t.Fits) (args : List Term) :
    t.encode.instantiate (args.map encode) = (t.instantiate args).encode := by
  simp [Expression.instantiate, Expression.withReplacements_eq, isNull_encode, decode_encode fits,
    Except.map, encodeWith_ofArgs]

section

variable [SpecialFunctions]

/-! Evaluation of a body with arguments in it -/

/-- Every argument that the evaluation of a body comes to has there the value that the frame holds for
it, which is the one that it has where a call evaluates it. -/
def Undisturbed (args : List Term) (caller values : Frame) (d : Term) (env : Environment) : Prop :=
  ∀ i env', Visits values d env (arg i) env' → ∀ a x, args[i.toNat]? = some a →
    values[i.toNat]? = some x → a.HasValue caller env' x

def Agrees (args : List Term) (caller values : Frame) (t : Term) (env : Environment) : Prop :=
  ∀ v, (t.instantiate args).HasValue caller env v ↔ t.HasValue values env v

mutual

def loopVariables : Term → List Address
  | literal _ | ref _ | arg _ => []
  | unary _ t => t.loopVariables
  | binary _ a b => a.loopVariables ++ b.loopVariables
  | branch c a b => c.loopVariables ++ a.loopVariables ++ b.loopVariables
  | loop _ v lower upper body =>
    v :: (lower.loopVariables ++ upper.loopVariables ++ body.loopVariables)
  | call _ ts => loopVariablesAll ts

def loopVariablesAll : List Term → List Address
  | [] => []
  | t :: ts => t.loopVariables ++ loopVariablesAll ts

end

section

variable {args : List Term} {caller : Frame} {outer : Environment} {values : Frame}

omit [SpecialFunctions] in
theorem instantiateAll_eq_map (ts : List Term) :
    instantiateAll args ts = ts.map (instantiate args) := by
  induction ts with
  | nil => rfl
  | cons t ts ih => rw [instantiateAll, ih, List.map_cons]

omit [SpecialFunctions] in
theorem mem_concat_encodeAll {n : Node} {ts : List Term} :
    n ∈ Expression.concat (encodeAll ts) ↔ ∃ t ∈ ts, n ∈ t.encode.nodes := by
  induction ts with
  | nil => simp [encodeAll, Expression.concat]
  | cons t ts ih => simp [encodeAll, Expression.concat_cons, Array.mem_append, ih]

theorem exists_of_haveValues {ts : List Term} {frame : Frame} {env : Environment} {xs : List Float}
    (h : HaveValues ts frame env xs) : ∀ {i : Nat}, i < ts.length →
      ∃ a x, ts[i]? = some a ∧ xs[i]? = some x ∧ a.HasValue frame env x := by
  induction h with
  | nil => intro i hi; simp at hi
  | cons hx _ ih =>
    intro i hi
    cases i with
    | zero => exact ⟨_, _, rfl, rfl, hx⟩
    | succ i => exact ih (Nat.lt_of_succ_lt_succ hi)

theorem haveValues_map_congr {ts : List Term} {f : Term → Term} {frame frame' : Frame}
    {env env' : Environment}
    (h : ∀ t ∈ ts, ∀ x, (f t).HasValue frame env x ↔ t.HasValue frame' env' x) :
    ∀ {xs : List Float}, HaveValues (ts.map f) frame env xs ↔ HaveValues ts frame' env' xs := by
  induction ts with
  | nil =>
    intro xs
    simp [HaveValues]
  | cons t ts ih =>
    intro xs
    have ih := fun xs => @ih (fun t ht => h t (by simp [ht])) xs
    simp only [HaveValues] at ih
    simp only [HaveValues, List.map_cons, List.forall₂_cons_left_iff, h t (by simp), ih]

theorem Evaluates.mem_nodes {t s : Term} {env env' : Environment} {n : Node}
    (h : Evaluates values t env s env') (hn : n ∈ s.encode.nodes) : n ∈ t.encode.nodes := by
  cases h with
  | operand => simp [nodes_unary, hn]
  | left | right => simp [nodes_binary, hn]
  | condition | yes | no => simp [nodes_branch, Expression.spanned, hn]
  | lower | upper | body => simp [nodes_loop, Expression.spanned, hn]
  | argument ht =>
    rw [nodes_call, Array.mem_append]
    exact .inr (mem_concat_encodeAll.2 ⟨_, ht, hn⟩)

theorem Visits.mem_nodes {t s : Term} {env env' : Environment} {n : Node}
    (h : Visits values t env s env') : n ∈ s.encode.nodes → n ∈ t.encode.nodes := by
  induction h with
  | self => exact fun hn => hn
  | step hstep _ ih => exact fun hn => hstep.mem_nodes (ih hn)

theorem agrees_of_parts {t : Term} {env : Environment}
    (h : ∀ s env', Evaluates values t env s env' → s.Agrees args caller values env')
    (harg : ∀ i, t = arg i → t.Agrees args caller values env) : t.Agrees args caller values env := by
  intro v
  cases t with
  | literal | ref => simp [instantiate]
  | arg i => exact harg i rfl v
  | unary op t => simp only [instantiate, hasValue_unary, h _ _ .operand _]
  | binary op a b => simp only [instantiate, hasValue_binary, h _ _ .left _, h _ _ .right _]
  | branch c a b =>
    simp only [instantiate, hasValue_branch, h _ _ .condition _]
    refine exists_congr fun x => and_congr_right fun hx => ?_
    by_cases hnan : x.isNaN
    · rw [if_pos hnan, if_pos hnan]
    · rw [if_neg hnan, if_neg hnan]
      by_cases hyes : x != 0.0
      · rw [if_pos hyes, if_pos hyes]
        exact h _ _ (.yes hx hnan hyes) v
      · rw [if_neg hyes, if_neg hyes]
        exact h _ _ (.no hx hnan hyes) v
  | loop kind a lower upper body =>
    simp only [instantiate, hasValue_loop, h _ _ .lower _, h _ _ .upper _]
    refine exists_congr fun lo => and_congr_right fun hlo => ?_
    refine exists_congr fun hi => and_congr_right fun hhi => ?_
    cases hrange : LoopRange.ofBounds? lo hi with
    | none => exact Iff.rfl
    | some range => exact Joins.congr fun i hmem x => h _ _ (.body hlo hhi hrange hmem) x
  | call f ts =>
    simp only [instantiate, instantiateAll_eq_map, hasValue_call]
    exact exists_congr fun vs => and_congr_left fun _ =>
      haveValues_map_congr fun t ht x => h _ _ (.argument ht) x

theorem agrees_arg_iff {i : UInt32} {env : Environment} {a : Term} {x : Float}
    (ha : args[i.toNat]? = some a) (hx : values[i.toNat]? = some x) :
    (arg i).Agrees args caller values env ↔ a.HasValue caller env x := by
  unfold Agrees
  simp only [instantiate, ha, hasValue_arg, hx, Option.getD_some]
  constructor
  · exact fun h => (h x).2 rfl
  · rintro h v
    exact ⟨fun hv => hasValue_unique hv h, fun hv => by rwa [hv]⟩

theorem agrees_of_undisturbed (hvalues : HaveValues args caller outer values) (d : Term)
    (env : Environment) :
    (∀ i env', Visits values d env (arg i) env' → i.toNat < args.length) →
      d.Undisturbed args caller values env → d.Agrees args caller values env := by
  -- not on the body alone: below a loop the arguments are looked at in another environment
  induction d, env using Evaluates.induction values with
  | step d env ih =>
    intro hbelow hsteady
    refine agrees_of_parts (fun s env' hs => ?_) ?_
    · exact ih s env' hs (fun i env'' hi => hbelow i env'' (.step hs hi))
        fun i env'' hi => hsteady i env'' (.step hs hi)
    · rintro i rfl
      obtain ⟨a, x, ha, hx, -⟩ := exists_of_haveValues hvalues (hbelow i env (.self _ env))
      exact (agrees_arg_iff ha hx).2 (hsteady i env (.self _ env) a x ha hx)

/-- No argument is disturbed exactly if everything that is evaluated on the way agrees. -/
theorem undisturbed_iff_agrees (hvalues : HaveValues args caller outer values) {d : Term}
    {env : Environment} (hbelow : ∀ i env', Visits values d env (arg i) env' → i.toNat < args.length) :
    d.Undisturbed args caller values env ↔
      ∀ s env', Visits values d env s env' → s.Agrees args caller values env' := by
  constructor
  · intro h s env' hs
    exact agrees_of_undisturbed hvalues s env' (fun i env'' hi => hbelow i env'' (hs.trans hi))
      fun i env'' hi => h i env'' (hs.trans hi)
  · intro h i env' hi a x ha hx
    exact (agrees_arg_iff ha hx).1 (h (arg i) env' hi)

end

/-! Variables of loops -/

omit [SpecialFunctions] in
theorem loopVariables_subset_all {t : Term} {ts : List Term} (h : t ∈ ts) :
    t.loopVariables ⊆ loopVariablesAll ts := by
  induction ts with
  | nil => simp at h
  | cons u ts ih =>
    intro v hv
    rw [loopVariablesAll, List.mem_append]
    rcases List.mem_cons.1 h with rfl | h
    · exact .inl hv
    · exact .inr (ih h hv)

theorem Evaluates.loopVariables_subset {frame : Frame} {t s : Term} {env env' : Environment}
    (h : Evaluates frame t env s env') : s.loopVariables ⊆ t.loopVariables := by
  intro v hv
  cases h with
  | argument ht => exact loopVariables_subset_all ht hv
  | _ => simp [loopVariables, hv]

theorem Evaluates.environment_cases {frame : Frame} {t s : Term} {env env' : Environment}
    (h : Evaluates frame t env s env') :
    env' = env ∨ ∃ v ∈ t.loopVariables, ∃ x, env' = env.setValue v x := by
  cases h with
  | body => exact .inr ⟨_, by simp [loopVariables], _, rfl⟩
  | _ => exact .inl rfl

theorem Visits.hasValue_of_independent {frame caller : Frame} {a t s : Term}
    {env env' : Environment} {x : Float} (h : Visits frame t env s env') :
    (∀ v ∈ t.loopVariables, ∀ env y, a.HasValue caller env x → a.HasValue caller (env.setValue v y) x) →
      a.HasValue caller env x → a.HasValue caller env' x := by
  induction h with
  | self => exact fun _ hx => hx
  | step hstep _ ih =>
    intro hindependent hx
    refine ih (fun v hv => hindependent v (hstep.loopVariables_subset hv)) ?_
    rcases hstep.environment_cases with rfl | ⟨v, hv, y, rfl⟩
    · exact hx
    · exact hindependent v hv _ y hx

/-- Nothing is disturbed if no argument has another value when a variable of a loop is rebound. -/
theorem undisturbed_of_independent {args : List Term} {caller values : Frame} {d : Term}
    {env : Environment} (hvalues : HaveValues args caller env values)
    (h : ∀ a ∈ args, ∀ v ∈ d.loopVariables, ∀ env x y, a.HasValue caller env x →
      a.HasValue caller (env.setValue v y) x) : d.Undisturbed args caller values env := by
  intro i env' hi a x ha hx
  obtain ⟨hlt, -⟩ := List.getElem?_eq_some_iff.1 ha
  obtain ⟨a', x', ha', hx', hvalue⟩ := exists_of_haveValues hvalues hlt
  rw [ha] at ha'
  rw [hx] at hx'
  cases ha'
  cases hx'
  exact hi.hasValue_of_independent
    (fun v hv env y => h a (List.mem_of_getElem? ha) v hv env x y) hvalue

/-! Bodies and arguments in their flat form -/

theorem haveValues_of_gives {args : List Term} {frame : Frame} {env : Environment}
    {values : List Float} (fits : FitsAll args)
    (h : List.Forall₂ (fun a x => a.Gives frame env x) (args.map encode) values) :
    HaveValues args frame env values := by
  rw [fitsAll_iff] at fits
  rw [List.forall₂_map_left_iff] at h
  induction h with
  | nil => exact .nil
  | cons hx _ ih =>
    exact .cons ((gives_encode (fits _ (by simp))).1 hx) (ih fun t ht => fits t (by simp [ht]))

theorem Evaluates.fits_instantiate {frame : Frame} {t s : Term} {env env' : Environment}
    {args : List Term} (h : Evaluates frame t env s env') (fits : (t.instantiate args).Fits) :
    (s.instantiate args).Fits := by
  cases h with
  | operand => exact fits
  | left => exact fits.1
  | right => exact fits.2
  | condition => exact fits.1
  | yes => exact fits.2.1
  | no => exact fits.2.2.1
  | lower => exact fits.1
  | upper => exact fits.2.1
  | body => exact fits.2.2.1
  | argument ht =>
    have fits := fits.1
    rw [instantiateAll_eq_map, fitsAll_iff] at fits
    exact fits _ (List.mem_map_of_mem ht)

theorem Visits.fits_instantiate {frame : Frame} {t s : Term} {env env' : Environment}
    {args : List Term} (h : Visits frame t env s env') :
    (t.instantiate args).Fits → (s.instantiate args).Fits := by
  induction h with
  | self => exact fun fits => fits
  | step hstep _ ih => exact fun fits => ih (hstep.fits_instantiate fits)

theorem agrees_iff_gives {args : List Term} {caller values : Frame} {t : Term} {env : Environment}
    (fits : t.Fits) (fits' : (t.instantiate args).Fits) :
    t.Agrees args caller values env ↔ ∀ v,
      (t.encode.instantiate (args.map encode)).Gives caller env v ↔ t.encode.Gives values env v := by
  unfold Agrees
  simp only [instantiate_encode fits, gives_encode fits', gives_encode fits]

theorem instantiate_visitedOnce (kind : Fold) (v : Address) {lo hi : Float} {range : LoopRange}
    {i : Int64} {a : Term} {caller : Frame} {env : Environment} {x y : Float}
    (hrange : LoopRange.ofBounds? lo hi = some range) (hlist : range.toList = [i]) (fits : a.Fits)
    (hsize : a.size + 1 < UInt32.size)
    (hy : a.encode.Gives caller (env.setValue v (ofPosition i)) y) :
    ((loop kind v (const lo) (const hi) (arg 0)).encode.instantiate [a.encode]).Gives caller env
        (kind.join kind.identity y) ∧
      (loop kind v (const lo) (const hi) (arg 0)).encode.Gives [x] env
        (kind.join kind.identity x) := by
  have fitsLoop : (loop kind v (const lo) (const hi) (arg 0)).Fits :=
    ⟨trivial, trivial, trivial, by simp [size, UInt32.size]⟩
  have hinst := instantiate_encode fitsLoop [a]
  simp only [List.map_cons, List.map_nil] at hinst
  have fitsInst : ((loop kind v (const lo) (const hi) (arg 0)).instantiate [a]).Fits :=
    ⟨trivial, trivial, fits, hsize⟩
  rw [hinst, gives_encode fitsInst, gives_encode fitsLoop]
  rw [gives_encode fits] at hy
  constructor
  · refine hasValue_loop.2 ⟨lo, hasValue_const.2 rfl, _, hasValue_const.2 rfl, ?_⟩
    rw [hrange]
    simp only [hlist, Joins]
    exact ⟨y, hy, rfl⟩
  · refine hasValue_loop.2 ⟨lo, hasValue_const.2 rfl, _, hasValue_const.2 rfl, ?_⟩
    rw [hrange]
    simp only [hlist, Joins]
    exact ⟨x, hasValue_arg.2 rfl, rfl⟩

/-- A body with arguments in it gives, in the frame of the caller, what the body gives in a frame of
their values, if no argument is disturbed. The condition can not be weakened: it holds exactly if the
same is true of everything that is evaluated on the way, and below a loop of one visit an argument
counts with the value that it has where the variable of the loop is rebound. -/
theorem instantiate_gives {d : Term} {args : List Term} {caller : Frame} {env : Environment}
    {values : List Float} (fits : d.Fits) (fitsArgs : FitsAll args)
    (fitsResult : (d.instantiate args).Fits)
    (hbelow : ∀ i, Node.arg i ∈ d.encode.nodes → i.toNat < args.length)
    (hvalues : List.Forall₂ (fun a x => a.Gives caller env x) (args.map encode) values) :
    (d.Undisturbed args caller values env →
      ∀ v, (d.encode.instantiate (args.map encode)).Gives caller env v ↔ d.encode.Gives values env v) ∧
    (d.Undisturbed args caller values env ↔ ∀ s env', Visits values d env s env' →
      ∀ v, (s.encode.instantiate (args.map encode)).Gives caller env' v ↔
        s.encode.Gives values env' v) ∧
    ∀ (kind : Fold) (v : Address) (lo hi : Float) (range : LoopRange) (i : Int64),
      LoopRange.ofBounds? lo hi = some range → range.toList = [i] →
      ∀ a ∈ args, a.size + 1 < UInt32.size → ∀ x y, a.encode.Gives caller env x →
        a.encode.Gives caller (env.setValue v (ofPosition i)) y →
        ((loop kind v (const lo) (const hi) (arg 0)).encode.instantiate [a.encode]).Gives caller env
            (kind.join kind.identity y) ∧
          (loop kind v (const lo) (const hi) (arg 0)).encode.Gives [x] env
            (kind.join kind.identity x) := by
  have hvalues := haveValues_of_gives fitsArgs hvalues
  have hindices : ∀ i env', Visits values d env (arg i) env' → i.toNat < args.length :=
    fun i env' hi => hbelow i (hi.mem_nodes (by simp [encode, Expression.arg, Expression.leaf]))
  refine ⟨fun hsteady => ?_, ?_, ?_⟩
  · rw [← agrees_iff_gives fits fitsResult]
    exact agrees_of_undisturbed hvalues d env hindices hsteady
  · rw [undisturbed_iff_agrees hvalues hindices]
    refine forall₂_congr fun s env' => forall_congr' fun hs => ?_
    exact agrees_iff_gives (hs.fits fits) (hs.fits_instantiate fitsResult)
  · intro kind v lo hi range i hrange hlist a ha hsize x y _ hy
    exact instantiate_visitedOnce kind v hrange hlist ((fitsAll_iff args).1 fitsArgs a ha) hsize hy

end

open Series

/-- Two variables: what a loop may rebind, and what it leaves alone. -/
def twoVariables : Environment := ⟨#[⟨some "i", 10.0⟩, ⟨some "k", 5.0⟩], #[]⟩

theorem instantiate_gives_below_loop :
    ((loop .sum ⟨1⟩ (const 1.0) (const 3.0) (binary .mul (arg 0) (ref ⟨1⟩))).encode.instantiate
      [(ref ⟨0⟩).encode]).Gives [] twoVariables 60.0 ∧
    ((loop .sum ⟨0⟩ (const 2.0) (const 2.0) (arg 0)).encode.instantiate [(ref ⟨0⟩).encode]).Gives []
      twoVariables (0.0 + 2.0) := by
  have fits : (loop .sum ⟨1⟩ (const 1.0) (const 3.0) (binary .mul (arg 0) (ref ⟨1⟩))).Fits := by
    simp [Fits, size, UInt32.size]
  have hvalue : (ref ⟨0⟩).encode.Gives [] twoVariables 10.0 :=
    (gives_encode (t := ref ⟨0⟩) trivial).2 ⟨0, rfl⟩
  have hvalues : HaveValues [ref ⟨0⟩] [] twoVariables [10.0] := .cons ⟨0, rfl⟩ .nil
  have hbelow : ∀ i, Node.arg i ∈ (loop .sum ⟨1⟩ (const 1.0) (const 3.0)
      (binary .mul (arg 0) (ref ⟨1⟩))).encode.nodes → i.toNat < [ref ⟨0⟩].length := by
    intro i hi
    rw [nodes_loop, nodes_binary] at hi
    obtain rfl : i = 0 := by
      simpa [Expression.spanned, encode, Expression.literal, Expression.var, Expression.arg,
        Expression.leaf] using hi
    decide
  have hsteady : (loop .sum ⟨1⟩ (const 1.0) (const 3.0) (binary .mul (arg 0) (ref ⟨1⟩))).Undisturbed
      [ref ⟨0⟩] [] [10.0] twoVariables := by
    refine undisturbed_of_independent hvalues fun a ha v hv env x y hx => ?_
    obtain rfl := List.mem_singleton.1 ha
    obtain rfl : v = ⟨1⟩ := by simpa [loopVariables] using hv
    rw [hasValue_ref] at hx ⊢
    rw [hx, Environment.value_setValue_of_ne env y (by decide)]
  obtain ⟨hkept, -, honce⟩ := @instantiate_gives _ _ [ref ⟨0⟩] _ _ _ fits ⟨trivial, trivial⟩
    (by simp [instantiate, Fits, size, UInt32.size]) hbelow (.cons hvalue .nil)
  constructor
  · exact (hkept hsteady 60.0).2 ((gives_encode fits).2 ⟨0, by decide +kernel⟩)
  · exact (honce .sum ⟨0⟩ 2.0 2.0 ⟨2, 2, 1, 1⟩ 2 (by decide +kernel) (by decide +kernel) (ref ⟨0⟩)
      (by simp) (by decide) 10.0 2.0 hvalue
      ((gives_encode (t := ref ⟨0⟩) trivial).2 ⟨0, by decide +kernel⟩)).1

def argTwice : Term := loop .sum ⟨0⟩ (const 1.0) (const 2.0) (arg 0)

/-- A loop of the body captures a variable of the argument. -/
theorem instantiate_captures :
    argTwice.encode.check = .ok () ∧
    (ref ⟨0⟩).encode.Gives [] twoVariables 10.0 ∧
    (argTwice.encode.instantiate [(ref ⟨0⟩).encode]).Gives []
      twoVariables 3.0 ∧
    argTwice.encode.Gives [10.0] twoVariables 20.0 ∧
    ¬ argTwice.encode.Gives [10.0] twoVariables 3.0 := by
  have fits : argTwice.Fits := by simp [argTwice, Fits, size, UInt32.size]
  have hcall : argTwice.HasValue [10.0] twoVariables 20.0 :=
    ⟨0, by decide +kernel⟩
  refine ⟨check_encode fits, (gives_encode (t := ref ⟨0⟩) trivial).2 ⟨0, rfl⟩, ?_,
    (gives_encode fits).2 hcall, ?_⟩
  · have hinst := instantiate_encode fits [ref ⟨0⟩]
    simp only [List.map_cons, List.map_nil] at hinst
    rw [hinst, gives_encode (by simp [argTwice, instantiate, Fits, size, UInt32.size])]
    exact ⟨0, by decide +kernel⟩
  · intro h
    have heq := hasValue_unique hcall ((gives_encode fits).1 h)
    exact absurd heq (by decide +kernel)

end Term

end PrefixCalculus
