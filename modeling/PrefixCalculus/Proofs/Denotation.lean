import Mathlib.Data.List.Forall2
import PrefixCalculus.Proofs.FlatEvaluation
set_option autoImplicit false

/-!
The value of a term without a count of calls. A term has at most one value, and which one it is
follows from the values of its operands; calls go through the body of the callee.
-/

namespace PrefixCalculus

namespace Joins

variable {kind : Fold} {value value' : Int64 → Float → Prop}

theorem mono : ∀ {is : List Int64} {acc v : Float}, (∀ i ∈ is, ∀ x, value i x → value' i x) →
    Joins kind value is acc v → Joins kind value' is acc v := by
  intro is
  induction is with
  | nil => exact fun _ h => h
  | cons i is ih =>
    intro acc v h hv
    obtain ⟨x, hx, hv⟩ := hv
    exact ⟨x, h i (by simp) x hx, ih (fun j hj => h j (by simp [hj])) hv⟩

theorem congr {is : List Int64} {acc v : Float} (h : ∀ i ∈ is, ∀ x, value i x ↔ value' i x) :
    Joins kind value is acc v ↔ Joins kind value' is acc v :=
  ⟨mono fun i hi x => (h i hi x).1, mono fun i hi x => (h i hi x).2⟩

theorem exists_value : ∀ {is : List Int64} {acc v : Float}, Joins kind value is acc v →
    ∀ i ∈ is, ∃ x, value i x := by
  intro is
  induction is with
  | nil => simp
  | cons i is ih =>
    intro acc v hv j hj
    obtain ⟨x, hx, hv⟩ := hv
    rcases List.mem_cons.1 hj with rfl | hj
    · exact ⟨x, hx⟩
    · exact ih hv j hj

theorem const_iff {x : Float} : ∀ {is : List Int64} {acc v : Float},
    Joins kind (fun _ y => y = x) is acc v ↔ v = is.foldl (fun acc _ => kind.join acc x) acc := by
  intro is
  induction is with
  | nil => exact Iff.rfl
  | cons i is ih => simp [Joins, ih]

end Joins

variable [SpecialFunctions]

/-- A walk over the expression, in a frame, ends with the value. -/
def Expression.Gives (e : Expression) (frame : Frame) (env : Environment) (v : Float) : Prop :=
  ∃ w, Walk.Ends e.nodes frame env 0 w ∧ w.value = v

namespace Term

theorem gives_encode {t : Term} (fits : t.Fits) {frame : Frame} {env : Environment} {v : Float} :
    t.encode.Gives frame env v ↔ t.HasValue frame env v := by
  have hread := decodeFrom_of_stands t fits t.size 0 (Nat.le_refl _) (stands_self _)
  constructor
  · rintro ⟨w, hw, rfl⟩
    exact ((Walk.ends_iff_of_decodeFrom hread).1 hw).1
  · intro h
    have hw : Walk.Ends t.encode.nodes frame env 0 ⟨v, 0 + t.size, env⟩ :=
      (Walk.ends_iff_of_decodeFrom hread).2 ⟨h, rfl, rfl⟩
    exact ⟨_, hw, rfl⟩

def Enters (f : FunctionId) (values : List Float) (env : Environment) (v : Float) : Prop :=
  ∃ depth, callValue depth f values env = some v

def HaveValues (ts : List Term) (frame : Frame) (env : Environment) (values : List Float) : Prop :=
  List.Forall₂ (fun t x => t.HasValue frame env x) ts values

section

variable {frame : Frame} {env : Environment} {v : Float}

theorem settles_value {t : Term} (h : t.HasValue frame env v) :
    Settles (fun depth => t.value depth frame env) v := by
  obtain ⟨depth, h⟩ := h
  exact ⟨depth, fun more hd => valueBy_mono (callValue_mono hd) t env v h⟩

@[simp] theorem hasValue_literal {x : Literal} : (literal x).HasValue frame env v ↔ v = x.value := by
  constructor
  · rintro ⟨_, h⟩
    exact (Option.some.inj h).symm
  · rintro rfl
    exact ⟨0, rfl⟩

theorem hasValue_const {x : Float} : (const x).HasValue frame env v ↔ v = x :=
  hasValue_literal

@[simp] theorem hasValue_ref {a : Address} : (ref a).HasValue frame env v ↔ v = env.value a := by
  constructor
  · rintro ⟨_, h⟩
    exact (Option.some.inj h).symm
  · rintro rfl
    exact ⟨0, rfl⟩

@[simp] theorem hasValue_arg {i : UInt32} :
    (arg i).HasValue frame env v ↔ v = (frame[i.toNat]?).getD nan := by
  constructor
  · rintro ⟨_, h⟩
    exact (Option.some.inj h).symm
  · rintro rfl
    exact ⟨0, rfl⟩

theorem hasValue_unary {op : UnaryOp} {t : Term} :
    (unary op t).HasValue frame env v ↔ ∃ x, t.HasValue frame env x ∧ v = op.apply x := by
  constructor
  · rintro ⟨d, h⟩
    obtain ⟨x, hx, rfl⟩ := Option.map_eq_some_iff.1 h
    exact ⟨x, ⟨d, hx⟩, rfl⟩
  · rintro ⟨x, ⟨d, hx⟩, rfl⟩
    exact ⟨d, Option.map_eq_some_iff.2 ⟨x, hx, rfl⟩⟩

theorem hasValue_binary {op : BinaryOp} {a b : Term} :
    (binary op a b).HasValue frame env v ↔
      ∃ x, a.HasValue frame env x ∧ ∃ y, b.HasValue frame env y ∧ v = op.apply x y := by
  constructor
  · rintro ⟨d, h⟩
    rw [value, valueBy, Walk.bind_eq_some] at h
    obtain ⟨x, hx, h⟩ := h
    rw [Walk.bind_eq_some] at h
    obtain ⟨y, hy, h⟩ := h
    exact ⟨x, ⟨d, hx⟩, y, ⟨d, hy⟩, (Option.some.inj h).symm⟩
  · rintro ⟨x, hx, y, hy, rfl⟩
    exact exists_of_settles
      (settles_bind (settles_value hx) (settles_bind (settles_value hy) (settles_some _)))

theorem hasValue_branch {c a b : Term} :
    (branch c a b).HasValue frame env v ↔ ∃ x, c.HasValue frame env x ∧
      if x.isNaN then v = nan
      else if x != 0.0 then a.HasValue frame env v else b.HasValue frame env v := by
  constructor
  · rintro ⟨d, h⟩
    rw [value, valueBy, Walk.bind_eq_some] at h
    obtain ⟨x, hx, h⟩ := h
    refine ⟨x, ⟨d, hx⟩, ?_⟩
    by_cases hnan : x.isNaN
    · rw [if_pos hnan] at h ⊢
      exact (Option.some.inj h).symm
    · rw [if_neg hnan] at h ⊢
      by_cases hzero : x != 0.0
      · rw [if_pos hzero] at h ⊢
        exact ⟨d, h⟩
      · rw [if_neg hzero] at h ⊢
        exact ⟨d, h⟩
  · rintro ⟨x, hx, h⟩
    refine exists_of_settles (settles_bind (settles_value hx) ?_)
    by_cases hnan : x.isNaN
    · simp only [if_pos hnan] at h ⊢
      rw [h]
      exact settles_some nan
    · simp only [if_neg hnan] at h ⊢
      by_cases hzero : x != 0.0
      · simp only [if_pos hzero] at h ⊢
        exact settles_value h
      · simp only [if_neg hzero] at h ⊢
        exact settles_value h

theorem hasValue_loop {kind : Fold} {a : Address} {lower upper body : Term} :
    (loop kind a lower upper body).HasValue frame env v ↔
      ∃ lo, lower.HasValue frame env lo ∧ ∃ hi, upper.HasValue frame env hi ∧
        match LoopRange.ofBounds? lo hi with
        | none => v = nan
        | some range => Joins kind (fun i x => body.HasValue frame (env.setValue a (ofPosition i)) x)
            range.toList kind.identity v := by
  constructor
  · rintro ⟨d, h⟩
    rw [value, valueBy, Walk.bind_eq_some] at h
    obtain ⟨lo, hlo, h⟩ := h
    rw [Walk.bind_eq_some] at h
    obtain ⟨hi, hhi, h⟩ := h
    refine ⟨lo, ⟨d, hlo⟩, hi, ⟨d, hhi⟩, ?_⟩
    cases hr : LoopRange.ofBounds? lo hi with
    | none =>
      rw [hr] at h
      exact (Option.some.inj h).symm
    | some range =>
      rw [hr] at h
      exact joins_of_foldlM (fun i x hx => ⟨d, hx⟩) h
  · rintro ⟨lo, hlo, hi, hhi, h⟩
    refine exists_of_settles
      (settles_bind (settles_value hlo) (settles_bind (settles_value hhi) ?_))
    cases hr : LoopRange.ofBounds? lo hi with
    | none =>
      rw [hr] at h
      rw [h]
      exact settles_some nan
    | some range =>
      rw [hr] at h
      exact settles_joins (fun i x hx => settles_value hx) h

theorem haveValues_of_valuesBy {depth : Nat} {ts : List Term} : ∀ {values : List Float},
    valuesBy (callValue depth) frame ts env = some values → HaveValues ts frame env values := by
  induction ts with
  | nil =>
    intro values h
    cases h
    exact .nil
  | cons t ts ih =>
    intro values h
    rw [valuesBy, Walk.bind_eq_some] at h
    obtain ⟨x, hx, h⟩ := h
    obtain ⟨xs, hxs, h⟩ := Walk.bind_eq_some.1 h
    cases h
    exact .cons ⟨depth, hx⟩ (ih hxs)

theorem settles_values {ts : List Term} {values : List Float} (h : HaveValues ts frame env values) :
    Settles (fun depth => valuesBy (callValue depth) frame ts env) values := by
  induction h with
  | nil => exact settles_some []
  | cons hx _ ih => exact settles_bind (settles_value hx) (settles_bind ih (settles_some _))

theorem hasValue_call {f : FunctionId} {args : List Term} :
    (call f args).HasValue frame env v ↔
      ∃ values, HaveValues args frame env values ∧ Enters f values env v := by
  constructor
  · rintro ⟨d, h⟩
    rw [value, valueBy, Walk.bind_eq_some] at h
    obtain ⟨values, hvs, h⟩ := h
    exact ⟨values, haveValues_of_valuesBy hvs, d, h⟩
  · rintro ⟨values, hvs, d, h⟩
    have henters : Settles (fun depth => callValue depth f values env) v :=
      ⟨d, fun more hd => callValue_mono hd _ _ _ _ h⟩
    exact exists_of_settles (settles_bind (settles_values hvs) henters)

end

/-! Terms with the same values -/

def SameValues (t t' : Term) : Prop :=
  ∀ frame env v, t.HasValue frame env v ↔ t'.HasValue frame env v

namespace SameValues

variable {a a' b b' c c' : Term}

theorem refl (t : Term) : SameValues t t :=
  fun _ _ _ => Iff.rfl

theorem trans (h : SameValues a b) (h' : SameValues b c) : SameValues a c :=
  fun frame env v => (h frame env v).trans (h' frame env v)

theorem unary (op : UnaryOp) (h : SameValues a a') : SameValues (.unary op a) (.unary op a') := by
  intro frame env v
  simp only [hasValue_unary, h frame env]

theorem binary (op : BinaryOp) (ha : SameValues a a') (hb : SameValues b b') :
    SameValues (.binary op a b) (.binary op a' b') := by
  intro frame env v
  simp only [hasValue_binary, ha frame env, hb frame env]

theorem branch (hc : SameValues c c') (ha : SameValues a a') (hb : SameValues b b') :
    SameValues (.branch c a b) (.branch c' a' b') := by
  intro frame env v
  simp only [hasValue_branch, hc frame env, ha frame env, hb frame env]

theorem loop (kind : Fold) (address : Address) (ha : SameValues a a') (hb : SameValues b b')
    (hc : SameValues c c') : SameValues (.loop kind address a b c) (.loop kind address a' b' c') := by
  intro frame env v
  simp only [hasValue_loop, ha frame env, hb frame env, hc frame]

theorem call (f : FunctionId) {ts ts' : List Term} (h : List.Forall₂ SameValues ts ts') :
    SameValues (.call f ts) (.call f ts') := by
  intro frame env v
  have hargs : ∀ values, HaveValues ts frame env values ↔ HaveValues ts' frame env values := by
    induction h with
    | nil => exact fun _ => Iff.rfl
    | cons ht _ ih =>
      intro values
      cases values with
      | nil => simp [HaveValues]
      | cons x values =>
        have ih := ih values
        simp only [HaveValues] at ih
        simp only [HaveValues, List.forall₂_cons, ih, ht frame env x]
  simp only [hasValue_call, hargs]

end SameValues

end Term

end PrefixCalculus
