import PrefixCalculus.Numeric.Series
import PrefixCalculus.Proofs.TreeValue
set_option autoImplicit false

/-!
Evaluation of a flat form finds exactly the value of the term. A walk counts every operand it is in
and a value counts calls only, so the two are compared where some depth is enough. Main statement:
wherever the flat form of a term stands, a walk ends exactly if the term has a value, with that value,
behind the flat form and in the same environment, whatever fills the spans that are not entered.
-/

namespace PrefixCalculus

/-- The numbers of a list joined from the left, where `value` says which number each of them gives. -/
def Joins (kind : Fold) (value : Int64 → Float → Prop) : List Int64 → Float → Float → Prop
  | [], acc, v => v = acc
  | i :: is, acc, v => ∃ x, value i x ∧ Joins kind value is (kind.join acc x) v

namespace Term

/-! More values of calls give more values of terms -/

theorem foldlM_join_mono {kind : Fold} {f g : Int64 → Option Float}
    (h : ∀ i v, f i = some v → g i = some v) :
    ∀ (is : List Int64) (acc v : Float),
      is.foldlM (fun acc i => (f i).map (kind.join acc)) acc = some v →
      is.foldlM (fun acc i => (g i).map (kind.join acc)) acc = some v := by
  intro is
  induction is with
  | nil => intro acc v hv; exact hv
  | cons i is ih =>
    intro acc v hv
    rw [List.foldlM_cons, Walk.bind_eq_some] at hv ⊢
    obtain ⟨acc', hacc, hv⟩ := hv
    obtain ⟨x, hx, rfl⟩ := Option.map_eq_some_iff.1 hacc
    exact ⟨_, by rw [h i x hx]; rfl, ih _ _ hv⟩

section

variable [SpecialFunctions]

theorem valuesBy_mono {enter enter' : Enter} {frame : Frame} {ts : List Term}
    (h : ∀ t ∈ ts, ∀ env v, t.valueBy enter frame env = some v → t.valueBy enter' frame env = some v) :
    ∀ env vs, valuesBy enter frame ts env = some vs → valuesBy enter' frame ts env = some vs := by
  induction ts with
  | nil => intro env vs hvs; exact hvs
  | cons t ts ih =>
    intro env vs hvs
    rw [valuesBy, Walk.bind_eq_some] at hvs ⊢
    obtain ⟨v, hv, hvs⟩ := hvs
    rw [Walk.bind_eq_some] at hvs
    obtain ⟨rest, hrest, hvs⟩ := hvs
    exact ⟨v, h t (by simp) env v hv,
      Walk.bind_eq_some.2 ⟨rest, ih (fun t ht => h t (by simp [ht])) env rest hrest, hvs⟩⟩

theorem valueBy_mono {enter enter' : Enter} (he : Enter.Le enter enter') {frame : Frame} (t : Term) :
    ∀ env v, t.valueBy enter frame env = some v → t.valueBy enter' frame env = some v := by
  induction t using Term.induction with
  | literal | ref | arg => intro env v hv; exact hv
  | unary op t ih =>
    intro env v hv
    obtain ⟨x, hx, rfl⟩ := Option.map_eq_some_iff.1 hv
    exact Option.map_eq_some_iff.2 ⟨x, ih env x hx, rfl⟩
  | binary op a b iha ihb =>
    intro env v hv
    rw [valueBy, Walk.bind_eq_some] at hv ⊢
    obtain ⟨x, hx, hv⟩ := hv
    rw [Walk.bind_eq_some] at hv
    obtain ⟨y, hy, hv⟩ := hv
    exact ⟨x, iha env x hx, Walk.bind_eq_some.2 ⟨y, ihb env y hy, hv⟩⟩
  | branch c a b ihc iha ihb =>
    intro env v hv
    rw [valueBy, Walk.bind_eq_some] at hv ⊢
    obtain ⟨x, hx, hv⟩ := hv
    refine ⟨x, ihc env x hx, ?_⟩
    by_cases hnan : x.isNaN
    · rwa [if_pos hnan] at hv ⊢
    · rw [if_neg hnan] at hv ⊢
      by_cases hzero : x != 0.0
      · rw [if_pos hzero] at hv ⊢
        exact iha env v hv
      · rw [if_neg hzero] at hv ⊢
        exact ihb env v hv
  | loop kind a lower upper body ihl ihu ihb =>
    intro env v hv
    rw [valueBy, Walk.bind_eq_some] at hv ⊢
    obtain ⟨lo, hlo, hv⟩ := hv
    rw [Walk.bind_eq_some] at hv
    obtain ⟨hi, hhi, hv⟩ := hv
    refine ⟨lo, ihl env lo hlo, Walk.bind_eq_some.2 ⟨hi, ihu env hi hhi, ?_⟩⟩
    cases hr : LoopRange.ofBounds? lo hi with
    | none => rwa [hr] at hv
    | some range =>
      rw [hr] at hv
      exact foldlM_join_mono (fun i x hx => ihb _ _ hx) _ _ _ hv
  | call f args ih =>
    intro env v hv
    rw [valueBy, Walk.bind_eq_some] at hv ⊢
    obtain ⟨vs, hvs, hv⟩ := hv
    exact ⟨vs, valuesBy_mono ih env vs hvs, he _ _ _ _ hv⟩

theorem callValue_mono {depth more : Nat} (hd : depth ≤ more) :
    Enter.Le (callValue depth) (callValue more) := by
  induction depth generalizing more with
  | zero => intro f values env v hv; cases hv
  | succ depth ih =>
    obtain ⟨more, rfl⟩ : ∃ k, more = k + 1 := ⟨more - 1, by omega⟩
    intro f values env v hv
    rw [callValue] at hv ⊢
    split at hv
    · exact hv
    · split at hv
      · rename_i hbad
        rwa [if_pos hbad]
      · rename_i hgood
        rw [if_neg hgood]
        split at hv
        · exact valueBy_mono (ih (Nat.le_of_succ_le_succ hd)) _ _ _ hv
        · obtain ⟨w, hw, hv⟩ := Option.map_eq_some_iff.1 hv
          exact Option.map_eq_some_iff.2
            ⟨w, walkAt_mono (Nat.le_of_succ_le_succ hd) _ _ _ _ _ hw, hv⟩

end

/-! A value uses the values of finitely many calls -/

def Settles {α : Type} (x : Nat → Option α) (a : α) : Prop :=
  ∃ d, ∀ k, d ≤ k → x k = some a

theorem settles_bind {α β : Type} {x : Nat → Option α} {f : Nat → α → Option β} {a : α} {b : β}
    (hx : Settles x a) (hf : Settles (fun k => f k a) b) : Settles (fun k => x k >>= f k) b := by
  obtain ⟨d, hd⟩ := hx
  obtain ⟨d', hd'⟩ := hf
  refine ⟨max d d', fun k hk => ?_⟩
  exact Walk.bind_eq_some.2 ⟨a, hd k (by omega), hd' k (by omega)⟩

theorem settles_map {α β : Type} {x : Nat → Option α} {a : α} (f : α → β) (hx : Settles x a) :
    Settles (fun k => (x k).map f) (f a) := by
  obtain ⟨d, hd⟩ := hx
  exact ⟨d, fun k hk => Option.map_eq_some_iff.2 ⟨a, hd k hk, rfl⟩⟩

theorem settles_some {α : Type} (a : α) : Settles (fun _ => some a) a :=
  ⟨0, fun _ _ => rfl⟩

theorem exists_of_settles {α : Type} {x : Nat → Option α} {a : α} (h : Settles x a) :
    ∃ d, x d = some a := by
  obtain ⟨d, hd⟩ := h
  exact ⟨d, hd d (Nat.le_refl d)⟩

theorem joins_of_foldlM {kind : Fold} {value : Int64 → Option Float}
    {values : Int64 → Float → Prop} (h : ∀ i x, value i = some x → values i x) :
    ∀ {is : List Int64} {acc v : Float},
      is.foldlM (fun acc i => (value i).map (kind.join acc)) acc = some v →
      Joins kind values is acc v := by
  intro is
  induction is with
  | nil => exact fun h => (Option.some.inj h).symm
  | cons i is ih =>
    intro acc v hv
    rw [List.foldlM_cons, Walk.bind_eq_some] at hv
    obtain ⟨acc', hacc, hv⟩ := hv
    obtain ⟨x, hx, rfl⟩ := Option.map_eq_some_iff.1 hacc
    exact ⟨x, h i x hx, ih hv⟩

theorem settles_joins {kind : Fold} {values : Int64 → Float → Prop}
    {value : Nat → Int64 → Option Float}
    (h : ∀ i x, values i x → Settles (fun d => value d i) x) :
    ∀ {is : List Int64} {acc v : Float}, Joins kind values is acc v →
      Settles (fun d => is.foldlM (fun acc i => (value d i).map (kind.join acc)) acc) v := by
  intro is
  induction is with
  | nil =>
    rintro acc v rfl
    exact settles_some _
  | cons i is ih =>
    rintro acc v ⟨x, hx, hv⟩
    simp only [List.foldlM_cons]
    exact settles_bind (settles_map _ (h i x hx)) (ih hv)

variable [SpecialFunctions]

section

variable {chain : Nat → Enter} {enter : Enter} {frame : Frame}

theorem settles_valuesBy {ts : List Term}
    (h : ∀ t ∈ ts, ∀ env v, t.valueBy enter frame env = some v →
      Settles (fun k => t.valueBy (chain k) frame env) v) :
    ∀ env vs, valuesBy enter frame ts env = some vs →
      Settles (fun k => valuesBy (chain k) frame ts env) vs := by
  induction ts with
  | nil =>
    intro env vs hvs
    exact ⟨0, fun _ _ => hvs⟩
  | cons t ts ih =>
    intro env vs hvs
    rw [valuesBy, Walk.bind_eq_some] at hvs
    obtain ⟨v, hv, hvs⟩ := hvs
    obtain ⟨rest, hrest, hvs⟩ := Walk.bind_eq_some.1 hvs
    cases hvs
    have hv := h t (by simp) env v hv
    have hrest := ih (fun t ht => h t (by simp [ht])) env rest hrest
    exact settles_bind hv (settles_bind hrest (settles_some _))

theorem settles_valueBy (hcover : ∀ {f values env v}, enter f values env = some v →
      Settles (fun k => chain k f values env) v) (t : Term) :
    ∀ env v, t.valueBy enter frame env = some v →
      Settles (fun k => t.valueBy (chain k) frame env) v := by
  -- each part settles at a depth of its own, and the deepest of these is enough for all
  induction t using Term.induction with
  | literal | ref | arg =>
    intro env v hv
    exact ⟨0, fun _ _ => hv⟩
  | unary op t ih =>
    intro env v hv
    obtain ⟨x, hx, rfl⟩ := Option.map_eq_some_iff.1 hv
    exact settles_map _ (ih env x hx)
  | binary op a b iha ihb =>
    intro env v hv
    rw [valueBy, Walk.bind_eq_some] at hv
    obtain ⟨x, hx, hv⟩ := hv
    obtain ⟨y, hy, hv⟩ := Walk.bind_eq_some.1 hv
    cases hv
    exact settles_bind (iha env x hx) (settles_bind (ihb env y hy) (settles_some _))
  | branch c a b ihc iha ihb =>
    intro env v hv
    rw [valueBy, Walk.bind_eq_some] at hv
    obtain ⟨x, hx, hv⟩ := hv
    refine settles_bind (ihc env x hx) ?_
    by_cases hnan : x.isNaN
    · simp only [if_pos hnan] at hv ⊢
      exact ⟨0, fun _ _ => hv⟩
    · simp only [if_neg hnan] at hv ⊢
      by_cases hzero : x != 0.0
      · simp only [if_pos hzero] at hv ⊢
        exact iha env v hv
      · simp only [if_neg hzero] at hv ⊢
        exact ihb env v hv
  | loop kind a lower upper body ihl ihu ihb =>
    intro env v hv
    rw [valueBy, Walk.bind_eq_some] at hv
    obtain ⟨lo, hlo, hv⟩ := hv
    obtain ⟨hi, hhi, hv⟩ := Walk.bind_eq_some.1 hv
    refine settles_bind (ihl env lo hlo) (settles_bind (ihu env hi hhi) ?_)
    cases hr : LoopRange.ofBounds? lo hi with
    | none =>
      rw [hr] at hv
      exact ⟨0, fun _ _ => hv⟩
    | some range =>
      rw [hr] at hv
      exact settles_joins (fun i x hx => ihb _ x hx) (joins_of_foldlM (fun _ _ hx => hx) hv)
  | call f args ih =>
    intro env v hv
    rw [valueBy, Walk.bind_eq_some] at hv
    obtain ⟨vs, hvs, hv⟩ := hv
    exact settles_bind (settles_valuesBy ih env vs hvs) (hcover hv)

end

theorem exists_valueBy_byWalk {enter : Enter} {frame : Frame}
    (hcover : ∀ {f values env v}, enter f values env = some v →
      ∃ d, Enter.byWalk d f values env = some v) {t : Term} {env : Environment} {v : Float}
    (hv : t.valueBy enter frame env = some v) :
    ∃ d, t.valueBy (Enter.byWalk d) frame env = some v := by
  have hsettles : ∀ {f values env v}, enter f values env = some v →
      Settles (fun k => Enter.byWalk k f values env) v := by
    intro f values env v h
    obtain ⟨d, hd⟩ := hcover h
    exact ⟨d, fun k hk => Enter.byWalk_mono hk _ _ _ _ hd⟩
  exact exists_of_settles (settles_valueBy hsettles t env v hv)

/-! Values of calls by walks and by terms -/

omit [SpecialFunctions] in
theorem exists_decodeFrom {e : Expression} {t : Term} (h : decode e = .ok t) :
    ∃ stop, decodeFrom e.nodes (e.nodes.size + 1) 0 = .ok (t, stop) := by
  unfold decode decodeAt at h
  cases hd : decodeFrom e.nodes (e.nodes.size + 1) 0 with
  | error d => rw [hd] at h; cases h
  | ok r => rw [hd] at h; cases h; exact ⟨r.2, rfl⟩

theorem exists_byWalk_of_callValue (depth : Nat) : ∀ {f values env v},
    callValue depth f values env = some v → ∃ d, Enter.byWalk d f values env = some v := by
  induction depth with
  | zero => intro f values env v hv; cases hv
  | succ depth ih =>
    intro f values env v hv
    rw [callValue] at hv
    unfold Enter.byWalk
    cases hf : env.function? f with
    | none =>
      simp only [hf] at hv
      exact ⟨0, hv⟩
    | some function =>
      simp only [hf] at hv
      by_cases hbad : function.argc.toNat ≠ values.length ∨ function.body.isNull
      · rw [if_pos hbad] at hv
        exact ⟨0, by simp only [if_pos hbad]; exact hv⟩
      · rw [if_neg hbad] at hv
        simp only [if_neg hbad]
        split at hv
        · rename_i body hbody
          obtain ⟨stop, hread⟩ := exists_decodeFrom hbody
          obtain ⟨d, hd⟩ := exists_valueBy_byWalk ih hv
          exact ⟨_, Option.map_eq_some_iff.2 ⟨_, walkAt_meets d _ hread _ _ hd, rfl⟩⟩
        · exact ⟨depth, hv⟩

theorem byWalk_le_callValue (depth : Nat) :
    Enter.Le (Enter.byWalk depth) (callValue (depth + 1)) := by
  -- a call at some level of a walk has all the depth that is left below that level
  induction depth using Nat.strongRecOn with
  | _ depth ih =>
    intro f values env v hv
    unfold Enter.byWalk at hv
    rw [callValue]
    cases hf : env.function? f with
    | none => simpa only [hf] using hv
    | some function =>
      simp only [hf] at hv
      by_cases hbad : function.argc.toNat ≠ values.length ∨ function.body.isNull
      · rw [if_pos hbad] at hv
        simpa only [if_pos hbad] using hv
      · rw [if_neg hbad] at hv
        simp only [if_neg hbad]
        split
        · rename_i body hbody
          obtain ⟨stop, hread⟩ := exists_decodeFrom hbody
          obtain ⟨w, hw, rfl⟩ := Option.map_eq_some_iff.1 hv
          have he : ∀ d, d < depth → Enter.Le (Enter.byWalk d) (callValue depth) :=
            fun d hd f values env v h => callValue_mono hd _ _ _ _ (ih d hd f values env v h)
          exact (walkAt_finds depth he hread env w hw).1
        · exact hv

/-- Some depth of calls is enough for the term to have the value. -/
def HasValue (t : Term) (frame : Frame) (env : Environment) (v : Float) : Prop :=
  ∃ depth, t.value depth frame env = some v

theorem hasValue_unique {t : Term} {frame : Frame} {env : Environment} {v v' : Float}
    (h : t.HasValue frame env v) (h' : t.HasValue frame env v') : v = v' := by
  obtain ⟨d, hd⟩ := h
  obtain ⟨d', hd'⟩ := h'
  have hd := valueBy_mono (callValue_mono (Nat.le_max_left d d')) t env v hd
  have hd' := valueBy_mono (callValue_mono (Nat.le_max_right d d')) t env v' hd'
  exact Option.some.inj (hd.symm.trans hd')

end Term

namespace Walk

variable [SpecialFunctions]

def Ends (nodes : Array Node) (frame : Frame) (env : Environment) (pos : Nat) (w : Walk) : Prop :=
  ∃ depth, walkAt depth nodes frame env pos = some w

theorem ends_succ {nodes : Array Node} {frame : Frame} {env : Environment} {pos : Nat} {w : Walk} :
    Ends nodes frame env pos w ↔ ∃ depth, walkAt (depth + 1) nodes frame env pos = some w := by
  constructor
  · rintro ⟨depth, h⟩
    exact ⟨depth, walkAt_mono (Nat.le_succ depth) _ _ _ _ _ h⟩
  · rintro ⟨depth, h⟩
    exact ⟨depth + 1, h⟩

section

variable {nodes : Array Node} {frame : Frame} {env : Environment} {pos : Nat} {w : Walk}

/-- Where a term is read, a walk ends exactly if the term has a value. -/
theorem ends_iff_of_decodeFrom {t : Term} {levels stop : Nat}
    (h : Term.decodeFrom nodes levels pos = .ok (t, stop)) :
    Ends nodes frame env pos w ↔ t.HasValue frame env w.value ∧ w.pos = stop ∧ w.env = env := by
  constructor
  · rintro ⟨depth, hw⟩
    have he : ∀ d, d < depth → Enter.Le (Enter.byWalk d) (Term.callValue depth) :=
      fun d hd f values env v h =>
        Term.callValue_mono hd _ _ _ _ (Term.byWalk_le_callValue d f values env v h)
    obtain ⟨hv, hrest⟩ := Term.walkAt_finds depth he h env w hw
    exact ⟨⟨depth, hv⟩, hrest⟩
  · rintro ⟨⟨depth, hv⟩, rfl, rfl⟩
    obtain ⟨d, hd⟩ := Term.exists_valueBy_byWalk (Term.exists_byWalk_of_callValue depth) hv
    exact ⟨_, Term.walkAt_meets d levels h _ _ hd⟩

theorem exists_walkAt_of_hasValue {t : Term} {levels stop : Nat} {v : Float}
    (h : Term.decodeFrom nodes levels pos = .ok (t, stop)) (hv : t.HasValue frame env v) :
    ∃ depth, ∀ more, depth ≤ more → walkAt more nodes frame env pos = some ⟨v, stop, env⟩ := by
  obtain ⟨depth, hw⟩ := (ends_iff_of_decodeFrom (w := ⟨v, stop, env⟩) h).2 ⟨hv, rfl, rfl⟩
  exact ⟨depth, fun more hd => walkAt_mono hd _ _ _ _ _ hw⟩

theorem ends_branch {c : Term} {levels mid : Nat} {yes no : Span} {x : Float}
    (hn : nodes[pos]? = some (.op .branch))
    (hc : Term.decodeFrom nodes levels (pos + 1) = .ok (c, mid))
    (hyes : Span.at? nodes mid = .ok yes) (hno : Span.at? nodes yes.stop = .ok no)
    (hx : c.HasValue frame env x) :
    Ends nodes frame env pos w ↔
      if x.isNaN then w = ⟨nan, no.stop, env⟩
      else ∃ b, Ends nodes frame env (if x != 0.0 then yes.bodyStart else no.bodyStart) b ∧
        w = { b with pos := no.stop } := by
  obtain ⟨depth, hwalk⟩ := exists_walkAt_of_hasValue hc hx
  have hstep : ∀ more, depth ≤ more → walkAt (more + 1) nodes frame env pos
      = if x.isNaN then some ⟨nan, no.stop, env⟩
        else (walkAt more nodes frame env (if x != 0.0 then yes.bodyStart else no.bodyStart)).map
          fun b => { b with pos := no.stop } := by
    intro more hd
    simp only [walkAt, hn, branch, hwalk more hd, hyes, hno, Option.bind_eq_bind, Option.bind_some]
    split
    · rfl
    · exact (Option.map_eq_bind ..).symm
  have hgrow : Ends nodes frame env pos w ↔
      ∃ more, depth ≤ more ∧ walkAt (more + 1) nodes frame env pos = some w := by
    rw [ends_succ]
    constructor
    · rintro ⟨d, h⟩
      exact ⟨max depth d, Nat.le_max_left .., walkAt_mono (by omega) _ _ _ _ _ h⟩
    · rintro ⟨more, -, h⟩
      exact ⟨more, h⟩
  rw [hgrow]
  by_cases hnan : x.isNaN
  · simp only [if_pos hnan] at hstep ⊢
    constructor
    · rintro ⟨more, hd, h⟩
      rw [hstep more hd] at h
      exact (Option.some.inj h).symm
    · rintro rfl
      exact ⟨depth, Nat.le_refl depth, hstep depth (Nat.le_refl depth)⟩
  · simp only [if_neg hnan] at hstep ⊢
    constructor
    · rintro ⟨more, hd, h⟩
      rw [hstep more hd] at h
      obtain ⟨b, hb, rfl⟩ := Option.map_eq_some_iff.1 h
      exact ⟨b, ⟨more, hb⟩, rfl⟩
    · rintro ⟨b, ⟨d, hb⟩, rfl⟩
      refine ⟨max depth d, Nat.le_max_left .., ?_⟩
      rw [hstep _ (Nat.le_max_left ..)]
      exact Option.map_eq_some_iff.2 ⟨b, walkAt_mono (Nat.le_max_right ..) _ _ _ _ _ hb, rfl⟩

/-- What a loop without visits gives: NaN if there is no range. -/
def unvisited (kind : Fold) (range : Option LoopRange) : Float :=
  match range with
  | none => nan
  | some _ => kind.identity

theorem ends_loop_of_unvisited {kind : Fold} {v : Address} {lower upper : Term}
    {levels mid stop : Nat} {span : Span} {lo hi : Float} (hn : nodes[pos]? = some (.op (.fold kind)))
    (hvar : nodes[pos + 1]? = some (.ref v))
    (hl : Term.decodeFrom nodes levels (pos + 2) = .ok (lower, mid))
    (hu : Term.decodeFrom nodes levels mid = .ok (upper, stop))
    (hspan : Span.at? nodes stop = .ok span) (hlo : lower.HasValue frame env lo)
    (hhi : upper.HasValue frame env hi)
    (hempty : ∀ range, LoopRange.ofBounds? lo hi = some range → range.remaining = 0) :
    Ends nodes frame env pos w ↔ w = ⟨unvisited kind (LoopRange.ofBounds? lo hi), span.stop, env⟩ := by
  obtain ⟨d, hd⟩ := exists_walkAt_of_hasValue hl hlo
  obtain ⟨d', hd'⟩ := exists_walkAt_of_hasValue hu hhi
  have hstep : ∀ more, max d d' ≤ more → walkAt (more + 1) nodes frame env pos
      = some ⟨unvisited kind (LoopRange.ofBounds? lo hi), span.stop, env⟩ := by
    intro more hmore
    simp only [walkAt, hn, loop, hvar, hd more (by omega), hd' more (by omega), hspan,
      Option.bind_eq_bind, Option.bind_some]
    cases hr : LoopRange.ofBounds? lo hi with
    | none => rfl
    | some range =>
      simp [hempty range hr, iterate, Environment.binding, Environment.setValue_value, unvisited]
  constructor
  · rintro ⟨depth, h⟩
    have h := walkAt_mono (show depth ≤ max depth (max d d') + 1 by omega) _ _ _ _ _ h
    rw [hstep _ (Nat.le_max_right ..)] at h
    exact (Option.some.inj h).symm
  · rintro rfl
    exact ⟨_, hstep _ (Nat.le_refl _)⟩

end

end Walk

namespace Term

section

variable [SpecialFunctions]

def branchOver (c : Term) (yes no : Array Node) : Array Node :=
  #[.op .branch] ++ c.encode.nodes ++ Expression.spanned yes ++ Expression.spanned no

def loopOver (kind : Fold) (v : Address) (lower upper : Term) (body : Array Node) : Array Node :=
  #[.op (.fold kind)] ++ #[.ref v] ++ lower.encode.nodes ++ upper.encode.nodes
    ++ Expression.spanned body

section

variable (before behind : Array Node) (frame : Frame) (env : Environment)

theorem ends_flat_form {t : Term} (fits : t.Fits) (w : Walk) :
    Walk.Ends (before ++ t.encode.nodes ++ behind) frame env before.size w ↔
      t.HasValue frame env w.value ∧ w.pos = before.size + t.size ∧ w.env = env :=
  Walk.ends_iff_of_decodeFrom
    (decodeFrom_of_stands t fits t.size _ (Nat.le_refl _) (stands_middle before _ behind))

theorem evalWithin_flat_form {t : Term} (fits : t.Fits) (v : Float) (after : Environment) :
    (∃ depth, t.encode.evalWithin depth env = some (v, after)) ↔ t.HasValue [] env v ∧ after = env := by
  have h := ends_flat_form #[] #[] [] env fits ⟨v, t.size, after⟩
  simp only [Array.empty_append, Array.append_empty, Array.size_empty, Nat.zero_add, true_and] at h
  rw [← h]
  simp only [Expression.evalWithin, isNull_encode, Bool.false_eq_true, if_false]
  constructor
  · rintro ⟨depth, hv⟩
    obtain ⟨w, hw, heq⟩ := Option.map_eq_some_iff.1 hv
    have hstop := ((Walk.ends_iff_of_decodeFrom
      (decodeFrom_of_stands t fits t.size 0 (Nat.le_refl _) (stands_self _))).1 ⟨depth, hw⟩).2.1
    obtain ⟨value, pos, after⟩ := w
    cases heq
    rw [Nat.zero_add] at hstop
    subst hstop
    exact ⟨depth, hw⟩
  · rintro ⟨depth, hw⟩
    exact ⟨depth, Option.map_eq_some_iff.2 ⟨_, hw, rfl⟩⟩

omit [SpecialFunctions] in
theorem size_branchOver (c : Term) (yes no : Array Node) :
    (branchOver c yes no).size = 5 + c.size + yes.size + no.size := by
  simp only [branchOver, Array.size_append, Array.size_singleton, size_encode,
    Expression.size_spanned]
  omega

/-- A branch of which only the body that is selected, if one is, has to be a flat form. -/
theorem ends_branchOver {c t : Term} {yes no : Array Node} {x : Float} (fits : c.Fits)
    (hyes : yes.size + 1 < UInt32.size) (hno : no.size + 1 < UInt32.size)
    (hx : c.HasValue frame env x)
    (hside : ¬ x.isNaN → t.Fits ∧ (if x != 0.0 then yes else no) = t.encode.nodes) (w : Walk) :
    Walk.Ends (before ++ branchOver c yes no ++ behind) frame env before.size w ↔
      (if x.isNaN then w.value = nan else t.HasValue frame env w.value) ∧
        w.pos = before.size + (branchOver c yes no).size ∧ w.env = env := by
  have h := stands_middle before (branchOver c yes no) behind
  generalize before ++ branchOver c yes no ++ behind = nodes at h ⊢
  rw [size_branchOver]
  rw [branchOver, stands_append, stands_append, stands_append, stands_singleton] at h
  obtain ⟨⟨⟨hn, hc⟩, hfirst⟩, hsecond⟩ := h
  have hc := decodeFrom_of_stands c fits c.size (before.size + 1) (Nat.le_refl _) (by simpa using hc)
  obtain ⟨hfirst, hyes⟩ := Span.at?_of_stands (before.size + 1 + c.size)
    (by simpa [size_encode, Nat.add_assoc] using hfirst) hyes
  obtain ⟨hsecond, hno⟩ := Span.at?_of_stands (before.size + 1 + c.size + (yes.size + 2))
    (by simpa [size_encode, Nat.add_assoc] using hsecond) hno
  have hstop : before.size + 1 + c.size + (yes.size + 2) + (no.size + 2)
      = before.size + (5 + c.size + yes.size + no.size) := by omega
  rw [Walk.ends_branch hn hc hfirst hsecond hx]
  simp only [Span.stop, Span.bodyStart, hstop]
  obtain ⟨value, pos, after⟩ := w
  by_cases hnan : x.isNaN
  · rw [if_pos hnan, if_pos hnan, Walk.mk.injEq]
  · rw [if_neg hnan, if_neg hnan]
    obtain ⟨ft, ht⟩ := hside hnan
    have hat : Stands nodes (if x != 0.0 then before.size + 1 + c.size + 1
        else before.size + 1 + c.size + (yes.size + 2) + 1) t.encode.nodes := by
      rw [← ht]
      split
      · exact hyes
      · exact hno
    have hread := decodeFrom_of_stands t ft t.size _ (Nat.le_refl _) hat
    constructor
    · rintro ⟨b, hb, heq⟩
      obtain ⟨hv, -, he⟩ := (Walk.ends_iff_of_decodeFrom hread).1 hb
      cases heq
      exact ⟨hv, rfl, he⟩
    · rintro ⟨hv, rfl, rfl⟩
      have hv : t.HasValue frame after value := hv
      exact ⟨⟨value, _, after⟩, (Walk.ends_iff_of_decodeFrom hread).2 ⟨hv, rfl, rfl⟩, rfl⟩

omit [SpecialFunctions] in
theorem size_loopOver (kind : Fold) (v : Address) (lower upper : Term) (body : Array Node) :
    (loopOver kind v lower upper body).size = 4 + lower.size + upper.size + body.size := by
  simp only [loopOver, Array.size_append, Array.size_singleton, size_encode,
    Expression.size_spanned]
  omega

theorem ends_loopOver {kind : Fold} {v : Address} {lower upper : Term} {body : Array Node}
    {lo hi : Float} (fl : lower.Fits) (fu : upper.Fits) (hbody : body.size + 1 < UInt32.size)
    (hlo : lower.HasValue frame env lo) (hhi : upper.HasValue frame env hi)
    (hempty : ∀ range, LoopRange.ofBounds? lo hi = some range → range.remaining = 0) (w : Walk) :
    Walk.Ends (before ++ loopOver kind v lower upper body ++ behind) frame env before.size w ↔
      w = ⟨Walk.unvisited kind (LoopRange.ofBounds? lo hi),
        before.size + (loopOver kind v lower upper body).size, env⟩ := by
  have h := stands_middle before (loopOver kind v lower upper body) behind
  generalize before ++ loopOver kind v lower upper body ++ behind = nodes at h ⊢
  rw [size_loopOver]
  rw [loopOver, stands_append, stands_append, stands_append, stands_append, stands_singleton,
    stands_singleton] at h
  obtain ⟨⟨⟨⟨hn, hvar⟩, hl⟩, hu⟩, hb⟩ := h
  have hl := decodeFrom_of_stands lower fl (max lower.size upper.size) (before.size + 2)
    (Nat.le_max_left ..) (by simpa using hl)
  have hu := decodeFrom_of_stands upper fu (max lower.size upper.size) (before.size + 2 + lower.size)
    (Nat.le_max_right ..) (by simpa [size_encode, Nat.add_assoc] using hu)
  obtain ⟨hspan, -⟩ := Span.at?_of_stands (before.size + 2 + lower.size + upper.size)
    (by simpa [size_encode, Nat.add_assoc] using hb) hbody
  have hstop : before.size + 2 + lower.size + upper.size + (body.size + 2)
      = before.size + (4 + lower.size + upper.size + body.size) := by omega
  rw [Walk.ends_loop_of_unvisited hn (by simpa using hvar) hl hu hspan hlo hhi hempty]
  simp only [Span.stop, hstop]

end

/-- A walk over a flat form, wherever it stands, has exactly the outcome that the value of the term
gives, and so has the evaluation of an expression. It keeps this outcome if the body that a branch
does not select, both bodies of a branch on NaN, or the body of a loop without visits are other nodes. -/
theorem evaluation_of_flat_form (before behind : Array Node) (frame : Frame) (env : Environment) :
    (∀ (t : Term) (w : Walk), t.Fits →
      (Walk.Ends (before ++ t.encode.nodes ++ behind) frame env before.size w ↔
        t.HasValue frame env w.value ∧ w.pos = before.size + t.encode.nodes.size ∧ w.env = env)) ∧
    (∀ (t : Term) (v : Float) (after : Environment), t.Fits →
      ((∃ depth, t.encode.evalWithin depth env = some (v, after)) ↔
        t.HasValue [] env v ∧ after = env)) ∧
    (∀ (c t : Term) (yes no : Array Node) (x : Float) (w : Walk), c.Fits →
      yes.size + 1 < UInt32.size → no.size + 1 < UInt32.size → c.HasValue frame env x →
      (¬ x.isNaN → t.Fits ∧ (if x != 0.0 then yes else no) = t.encode.nodes) →
      (Walk.Ends (before ++ branchOver c yes no ++ behind) frame env before.size w ↔
        (if x.isNaN then w.value = nan else t.HasValue frame env w.value) ∧
          w.pos = before.size + (branchOver c yes no).size ∧ w.env = env)) ∧
    (∀ (kind : Fold) (v : Address) (lower upper : Term) (body : Array Node) (lo hi : Float) (w : Walk),
      lower.Fits → upper.Fits → body.size + 1 < UInt32.size →
      lower.HasValue frame env lo → upper.HasValue frame env hi →
      (∀ range, LoopRange.ofBounds? lo hi = some range → range.remaining = 0) →
      (Walk.Ends (before ++ loopOver kind v lower upper body ++ behind) frame env before.size w ↔
        w = ⟨Walk.unvisited kind (LoopRange.ofBounds? lo hi),
          before.size + (loopOver kind v lower upper body).size, env⟩)) := by
  refine ⟨?_, ?_, ?_, ?_⟩
  · intro t w fits
    rw [size_encode]
    exact ends_flat_form before behind frame env fits w
  · intro t v after fits
    exact evalWithin_flat_form env fits v after
  · intro c t yes no x w fits hyes hno hx hside
    exact ends_branchOver before behind frame env fits hyes hno hx hside w
  · intro kind v lower upper body lo hi w fl fu hbody hlo hhi hempty
    exact ends_loopOver before behind frame env fl fu hbody hlo hhi hempty w

end

open Series

/-- The callee multiplies its argument with the variable of the caller's loop. -/
def scaledSum : Term × Environment :=
  (loop .sum ⟨0⟩ (const 1.0) (const 3.0) (call ⟨0⟩ [ref ⟨1⟩]),
    ⟨#[⟨some "i", 10.0⟩, ⟨some "x", 2.0⟩],
      #[⟨⟨"f", 1, (binary .mul (arg 0) (ref ⟨0⟩)).encode⟩, true⟩]⟩)

theorem evaluation_of_scaledSum :
    (∃ depth, scaledSum.1.encode.evalWithin depth scaledSum.2 = some (12.0, scaledSum.2)) ∧
    Walk.Ends (#[.const 7.0] ++ branchOver (const 0.0) #[.closing 3] scaledSum.1.encode.nodes ++ #[])
      [] scaledSum.2 1 ⟨12.0, 16, scaledSum.2⟩ ∧
    Walk.Ends (#[] ++ loopOver .product ⟨0⟩ (const 0.2) (const 0.8) #[.op (.binary .add)] ++ #[.arg 0])
      [] scaledSum.2 0 ⟨1.0, 7, scaledSum.2⟩ := by
  have fits : scaledSum.1.Fits := by simp [scaledSum, Fits, FitsAll, size, sizeAll, UInt32.size]
  have hv : scaledSum.1.HasValue [] scaledSum.2 12.0 := ⟨2, by decide +kernel⟩
  refine ⟨?_, ?_, ?_⟩
  · exact ((evaluation_of_flat_form #[] #[] [] _).2.1 _ _ _ fits).2 ⟨hv, rfl⟩
  · exact ((evaluation_of_flat_form #[.const 7.0] #[] [] _).2.2.1 (const 0.0) scaledSum.1 _ _ 0.0 _
      trivial (by decide) (by decide) ⟨0, rfl⟩ (fun _ => ⟨fits, by decide +kernel⟩)).2
      ⟨by rw [if_neg (by decide)]; exact hv, by decide +kernel, rfl⟩
  · exact ((evaluation_of_flat_form #[] #[.arg 0] [] _).2.2.2 .product ⟨0⟩ (const 0.2) (const 0.8) _ 0.2
      0.8 _ trivial trivial (by decide) ⟨0, rfl⟩ ⟨0, rfl⟩ (by decide +kernel)).2
      (by rw [Walk.mk.injEq]; decide +kernel)

end Term

end PrefixCalculus
