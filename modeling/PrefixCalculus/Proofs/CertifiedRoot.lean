import PrefixCalculus.Numeric.Series
import PrefixCalculus.Proofs.Doubles
import PrefixCalculus.Proofs.Restoration
set_option autoImplicit false

/-!
What the result of a search of a root says. The trail of a search consists of the iterates that it goes
through, each with the step that led to it. A search returns the first iterate of its trail that it
accepts, and nothing else but NaN. No step leads to the start, so with a finite tolerance for the step
the start is never accepted. Main statement: a root that was found lies within the bounds, the
function is small there, and a small step along a tangent led to it.
-/

namespace PrefixCalculus

namespace Double

open Float.Model UnpackedFloat

theorem abs_infinity : infinity.abs = infinity :=
  eq_of_bits (by decide)

theorem unpack_infinity : infinity.toModel.unpack = .infinity .positive :=
  have h : Fields infinity .positive (-1#11) 0#52 := fields_of_bits (by decide)
  h.unpacks.unique (.infinity rfl rfl)

theorem not_infinity_le {x : Float} (h : x < infinity) : ¬ infinity ≤ x := by
  intro hle
  have hlt : x.toModel.unpack.lt infinity.toModel.unpack = true := of_decide_eq_true h
  replace hle : infinity.toModel.unpack.le x.toModel.unpack = true := of_decide_eq_true hle
  rw [unpack_infinity] at hlt hle
  cases hx : x.toModel.unpack with
  | infinity sign =>
    rw [hx] at hlt hle
    cases sign with
    | positive => exact absurd hlt (by decide)
    | negative => exact absurd hle (by decide)
  | finite | zero | notANumber => simp [hx, UnpackedFloat.le, UnpackedFloat.compare] at hle

end Double

section

variable [SpecialFunctions]

def Expression.HasValueAt (depth : Nat) (e : Expression) (address : Address) (env : Environment)
    (x v : Float) : Prop :=
  e.evalWithin depth (env.setValue address x) = some (v, env.setValue address x)

namespace RootSearch

section

variable (depth : Nat) (f slope : Expression) (address : Address) (s : SearchSettings)
  (env : Environment)

/-- The tangent at `p` meets zero at `q` within the bounds, `step` before `p`. -/
structure Tangent (p step q : Float) : Prop where
  meets : ∃ fp dp, f.HasValueAt depth address env p fp ∧ slope.HasValueAt depth address env p dp ∧
    dp.isNaN = false ∧ (dp == 0.0) = false ∧ step = fp / dp
  next : q = p - step
  lower : s.lowerBound ≤ q
  upper : q ≤ s.upperBound

def Judges (x step : Float) (accepted : Bool) : Prop :=
  ∃ v, f.HasValueAt depth address env x v ∧ v.isNaN = false ∧ s.accepts step v = accepted

/-- So many steps after the start the search is at the iterate, the last step being the given one. No
iterate before is accepted. -/
inductive Trail (start : Float) : Nat → Float → Float → Prop
  | start : Trail start 0 start infinity
  | next {n : Nat} {p before step q : Float} : Trail start n p before →
      Judges depth f address s env p before false → Tangent depth f slope address s env p step q →
      Trail start (n + 1) q step

end

variable {depth : Nat} {f slope : Expression} {address : Address} {s : SearchSettings}
  {env env' after : Environment} {x step start r : Float} {n : Nat}

theorem visit_setValue (y : Float) :
    visit depth f address s x step (env.setValue address y) = visit depth f address s x step env := by
  rw [visit, visit, Environment.setValue_setValue]

theorem iterate_setValue (left : Nat) (y : Float) :
    iterate depth f slope address s left x step (env.setValue address y)
      = iterate depth f slope address s left x step env := by
  cases left <;> rw [iterate, iterate, visit_setValue]

theorem visit_of_value (s : SearchSettings) (step : Float) {v : Float}
    (hv : f.HasValueAt depth address env x v) :
    visit depth f address s x step env = some
      (if v.isNaN then .error nan else if s.accepts step v then .error x else .ok v,
        env.setValue address x) := by
  rw [visit, hv]
  dsimp only [Option.bind_eq_bind, Option.bind_some]
  cases v.isNaN <;> cases s.accepts step v <;> rfl

theorem exists_value_of_visit {outcome : Except Float Float}
    (h : visit depth f address s x step env = some (outcome, after)) :
    ∃ v, f.HasValueAt depth address env x v := by
  obtain ⟨⟨v, last⟩, hv, -⟩ := Walk.bind_eq_some.1 h
  obtain rfl := Expression.evalWithin_keeps hv
  exact ⟨v, hv⟩

theorem advance_of_value (s : SearchSettings) (fp : Float) {dp : Float}
    (hd : slope.HasValueAt depth address env x dp) :
    advance depth slope s x fp (env.setValue address x) = some
      (if dp.isNaN || dp == 0.0 then .error nan
        else if s.bounds (x - fp / dp) then .ok (x - fp / dp, fp / dp) else .error nan,
        env.setValue address x) := by
  rw [advance, hd]
  dsimp only [Option.bind_eq_bind, Option.bind_some]
  cases dp.isNaN || dp == 0.0 <;> cases s.bounds (x - fp / dp) <;> rfl

theorem iterate_of_accepted (left : Nat) (h : Judges depth f address s env x step true) :
    iterate depth f slope address s left x step env = some (x, env.setValue address x) := by
  obtain ⟨v, hv, hnan, haccepts⟩ := h
  have hvisit := visit_of_value s step hv
  rw [hnan, haccepts] at hvisit
  cases left <;> rw [iterate, hvisit] <;> rfl

theorem iterate_of_tangent (left : Nat) {q next : Float}
    (h : Judges depth f address s env x step false)
    (ht : Tangent depth f slope address s env x next q) :
    iterate depth f slope address s (left + 1) x step env
      = iterate depth f slope address s left q next env := by
  obtain ⟨v, hv, hnan, haccepts⟩ := h
  obtain ⟨⟨fp, dp, hf, hd, hdnan, hdzero, rfl⟩, rfl, hlower, hupper⟩ := ht
  obtain rfl : v = fp := by
    rw [Expression.HasValueAt, hv] at hf
    cases hf
    rfl
  have hvisit := visit_of_value s step hv
  have hbounds : s.bounds (x - v / dp) = true := by simp [SearchSettings.bounds, hlower, hupper]
  have hadvance := advance_of_value s v hd
  rw [hnan, haccepts] at hvisit
  rw [hdnan, hdzero, hbounds] at hadvance
  rw [iterate, hvisit]
  change (advance depth slope s x v (env.setValue address x) >>= _) = _
  rw [hadvance]
  exact iterate_setValue left x

theorem cases_of_visit {outcome : Except Float Float}
    (h : visit depth f address s x step env = some (outcome, after)) :
    after = env.setValue address x ∧
      (outcome = .error nan ∨
        outcome = .error x ∧ Judges depth f address s env x step true ∨
        ∃ v, outcome = .ok v ∧ f.HasValueAt depth address env x v ∧
          Judges depth f address s env x step false) := by
  obtain ⟨v, hv⟩ := exists_value_of_visit h
  rw [visit_of_value s step hv] at h
  cases h
  refine ⟨rfl, ?_⟩
  cases hnan : v.isNaN with
  | true => exact .inl rfl
  | false =>
    cases haccepts : s.accepts step v with
    | true => exact .inr (.inl ⟨rfl, v, hv, hnan, haccepts⟩)
    | false => exact .inr (.inr ⟨v, rfl, hv, v, hv, hnan, haccepts⟩)

theorem cases_of_advance {fp : Float} {outcome : Except Float (Float × Float)}
    (hf : f.HasValueAt depth address env x fp)
    (h : advance depth slope s x fp (env.setValue address x) = some (outcome, after)) :
    after = env.setValue address x ∧
      (outcome = .error nan ∨
        ∃ next q, outcome = .ok (q, next) ∧ Tangent depth f slope address s env x next q) := by
  obtain ⟨⟨dp, last⟩, hd, -⟩ := Walk.bind_eq_some.1 h
  obtain rfl := Expression.evalWithin_keeps hd
  rw [advance_of_value s fp hd] at h
  cases h
  refine ⟨rfl, ?_⟩
  split
  · exact .inl rfl
  · rename_i hslope
    split
    · rename_i hbounds
      obtain ⟨hnan, hzero⟩ : dp.isNaN = false ∧ (dp == 0.0) = false := by simpa using hslope
      obtain ⟨hlower, hupper⟩ : s.lowerBound ≤ x - fp / dp ∧ x - fp / dp ≤ s.upperBound := by
        simpa [SearchSettings.bounds] using hbounds
      exact .inr ⟨_, _, rfl, ⟨fp, dp, hf, hd, hnan, hzero, rfl⟩, rfl, hlower, hupper⟩
    · exact .inl rfl

theorem cases_of_iterate {left : Nat} (hr : r.isNaN = false)
    (h : iterate depth f slope address s left x step env = some (r, after)) :
    Judges depth f address s env x step true ∧ r = x ∨
      ∃ rest q next, left = rest + 1 ∧ Judges depth f address s env x step false ∧
        Tangent depth f slope address s env x next q ∧
        iterate depth f slope address s rest q next env = some (r, after) := by
  have notNaN {a : Environment} (h : some (nan, a) = some (r, after)) : False := by
    cases h
    exact absurd hr (by decide)
  cases left with
  | zero =>
    rw [iterate, Walk.bind_eq_some] at h
    obtain ⟨⟨outcome, last⟩, hvisit, h⟩ := h
    obtain ⟨-, rfl | ⟨rfl, hjudges⟩ | ⟨v, rfl, -⟩⟩ := cases_of_visit hvisit
    · exact (notNaN h).elim
    · cases h
      exact .inl ⟨hjudges, rfl⟩
    · exact (notNaN h).elim
  | succ left =>
    rw [iterate, Walk.bind_eq_some] at h
    obtain ⟨⟨outcome, last⟩, hvisit, h⟩ := h
    obtain ⟨rfl, rfl | ⟨rfl, hjudges⟩ | ⟨v, rfl, hv, hjudges⟩⟩ := cases_of_visit hvisit
    · exact (notNaN h).elim
    · cases h
      exact .inl ⟨hjudges, rfl⟩
    · obtain ⟨⟨outcome, last⟩, hadvance, h⟩ := Walk.bind_eq_some.1 h
      obtain ⟨rfl, rfl | ⟨next, q, rfl, ht⟩⟩ := cases_of_advance hv hadvance
      · exact (notNaN h).elim
      · exact .inr ⟨left, q, next, rfl, hjudges, ht, (iterate_setValue left x).symm.trans h⟩

theorem iterate_of_trail {left : Nat} (h : Trail depth f slope address s env start n x step) :
    iterate depth f slope address s (left + n) start infinity env
      = iterate depth f slope address s left x step env := by
  induction h generalizing left with
  | start => rfl
  | @next n p before next q _ hjudges ht ih =>
    rw [← iterate_of_tangent left hjudges ht, ← ih, Nat.add_right_comm, Nat.add_assoc]

theorem exists_trail_of_iterate {left : Nat} (hr : r.isNaN = false)
    (ht : Trail depth f slope address s env start n x step)
    (h : iterate depth f slope address s left x step env = some (r, after)) :
    ∃ m last, m ≤ n + left ∧ Trail depth f slope address s env start m r last ∧
      Judges depth f address s env r last true := by
  induction left generalizing n x step with
  | zero =>
    obtain ⟨hjudges, rfl⟩ | ⟨_, _, _, hleft, -⟩ := cases_of_iterate hr h
    · exact ⟨n, step, le_rfl, ht, hjudges⟩
    · cases hleft
  | succ left ih =>
    obtain ⟨hjudges, rfl⟩ | ⟨rest, q, next, hleft, hjudges, htangent, h⟩ := cases_of_iterate hr h
    · exact ⟨n, step, by omega, ht, hjudges⟩
    · cases hleft
      obtain ⟨m, last, hm, hlast⟩ := ih (ht.next hjudges htangent) h
      exact ⟨m, last, by omega, hlast⟩

end RootSearch

/-- A search gives a number exactly if its trail comes to an iterate that is accepted. -/
theorem Expression.rootByWithin_eq_some_iff {depth : Nat} {f slope : Expression} {address : Address}
    {s : SearchSettings} {env after : Environment} {start r : Float} (hr : r.isNaN = false) :
    f.rootByWithin depth slope address start s env = some (r, after) ↔
      after = env ∧ f.isNull = false ∧ slope.isNull = false ∧
      ∃ n last, n ≤ s.maxIterations.toNat ∧
        RootSearch.Trail depth f slope address s env start n r last ∧
        RootSearch.Judges depth f address s env r last true := by
  constructor
  · intro h
    refine ⟨rootByWithin_keeps h, ?_⟩
    unfold rootByWithin at h
    split at h
    · cases h
      exact absurd hr (by decide)
    · rename_i hnull
      obtain ⟨hf, hslope⟩ : f.isNull = false ∧ slope.isNull = false := by simpa using hnull
      obtain ⟨⟨r', last⟩, hiterate, h⟩ := Option.map_eq_some_iff.1 h
      cases h
      obtain ⟨n, step, hn, htrail⟩ := RootSearch.exists_trail_of_iterate hr .start hiterate
      exact ⟨hf, hslope, n, step, by omega, htrail⟩
  · rintro ⟨rfl, hf, hslope, n, step, hn, htrail, hjudges⟩
    have hiterate : RootSearch.iterate depth f slope address s s.maxIterations.toNat start infinity
        after = some (r, after.setValue address r) := by
      rw [← Nat.sub_add_cancel hn, RootSearch.iterate_of_trail htrail,
        RootSearch.iterate_of_accepted _ hjudges]
    rw [rootByWithin, hf, hslope, Environment.binding, if_neg (by decide), hiterate]
    simp

/-- **A root that was found is certified**: it lies within the bounds, the function is small there, and
the step that led to it is small and goes along the tangent at an iterate, the slope there being neither
NaN nor zero; the step is one of at most `maxIterations` many from the start. -/
theorem root_certified {depth : Nat} {f slope : Expression} {address : Address} {s : SearchSettings}
    {env after : Environment} {start r : Float} (hs : s.stepTolerance < infinity)
    (h : f.rootByWithin depth slope address start s env = some (r, after)) (hr : r.isNaN = false) :
    (∃ v, f.HasValueAt depth address env r v ∧ v.abs ≤ s.valueTolerance) ∧
    s.lowerBound ≤ r ∧ r ≤ s.upperBound ∧
    ∃ n p before fp dp, n < s.maxIterations.toNat ∧
      RootSearch.Trail depth f slope address s env start n p before ∧
      f.HasValueAt depth address env p fp ∧ slope.HasValueAt depth address env p dp ∧
      dp.isNaN = false ∧ (dp == 0.0) = false ∧
      r = p - fp / dp ∧ (fp / dp).abs ≤ s.stepTolerance := by
  obtain ⟨-, -, -, m, last, hm, htrail, v, hv, -, haccepts⟩ :=
    (Expression.rootByWithin_eq_some_iff hr).1 h
  obtain ⟨hstep, hvalue⟩ : last.abs ≤ s.stepTolerance ∧ v.abs ≤ s.valueTolerance := by
    simpa [SearchSettings.accepts] using haccepts
  cases htrail with
  | start =>
    rw [Double.abs_infinity] at hstep
    exact absurd hstep (Double.not_infinity_le hs)
  | @next n p before _ _ hp _ ht =>
    obtain ⟨⟨fp, dp, hf, hd, hnan, hzero, rfl⟩, rfl, hlower, hupper⟩ := ht
    exact ⟨⟨v, hv, hvalue⟩, hlower, hupper, n, p, before, fp, dp, hm, hp, hf, hd, hnan, hzero, rfl,
      hstep⟩

end

open Series

def squareLessFour : Expression :=
  (Term.binary .sub (.binary .mul (.ref ⟨0⟩) (.ref ⟨0⟩)) (.const 4.0)).encode

def twiceVariable : Expression :=
  (Term.binary .add (.ref ⟨0⟩) (.ref ⟨0⟩)).encode

/-- From three the search goes to two, where the square less four is small. -/
theorem squareLessFour_certified :
    SearchSettings.default.stepTolerance < infinity ∧
    squareLessFour.rootByWithin 5 twiceVariable ⟨0⟩ 3.0 .default loopingStore
      = some (2.0, loopingStore) ∧
    (2.0 : Float).isNaN = false ∧
    (∃ v, squareLessFour.HasValueAt 5 ⟨0⟩ loopingStore 2.0 v ∧ v.abs ≤ 1e-10) ∧
    ∃ n p before fp dp, n < 64 ∧
      RootSearch.Trail 5 squareLessFour twiceVariable ⟨0⟩ .default loopingStore 3.0 n p before ∧
      squareLessFour.HasValueAt 5 ⟨0⟩ loopingStore p fp ∧
      twiceVariable.HasValueAt 5 ⟨0⟩ loopingStore p dp ∧ dp.isNaN = false ∧ (dp == 0.0) = false ∧
      2.0 = p - fp / dp ∧ (fp / dp).abs ≤ 1e-10 := by
  have hs : SearchSettings.default.stepTolerance < infinity := by decide +kernel
  have h : squareLessFour.rootByWithin 5 twiceVariable ⟨0⟩ 3.0 .default loopingStore
      = some (2.0, loopingStore) := by decide +kernel
  have hr : (2.0 : Float).isNaN = false := by decide +kernel
  obtain ⟨hvalue, -, -, hstep⟩ := root_certified hs h hr
  exact ⟨hs, h, hr, hvalue, hstep⟩

end PrefixCalculus
