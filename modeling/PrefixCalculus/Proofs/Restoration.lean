import PrefixCalculus.Numeric.Series
import PrefixCalculus.Proofs.Walking
import PrefixCalculus.RootSearch
set_option autoImplicit false

/-!
Evaluation and the search of a root write to the environment and put back what they found. While a
search is under way only its variable differs from what it was, whichever way the search ends.
Main statement: after a walk, and after a search, the environment is the one before.
-/

namespace PrefixCalculus

section

variable [SpecialFunctions]

theorem Expression.evalWithin_keeps {depth : Nat} {e : Expression} {env after : Environment}
    {v : Float} (h : e.evalWithin depth env = some (v, after)) : after = env := by
  unfold evalWithin at h
  split at h
  · cases h
    rfl
  · obtain ⟨w, hw, hr⟩ := Option.map_eq_some_iff.1 h
    cases hr
    exact walkAt_keeps depth e.nodes [] env 0 w hw

namespace RootSearch

variable {depth : Nat} {f slope : Expression} {address : Address} {s : SearchSettings}
  {env after : Environment} {x step fx : Float}

theorem visit_keeps_others {outcome : Except Float Float}
    (h : visit depth f address s x step env = some (outcome, after)) (y : Float) :
    after.setValue address y = env.setValue address y := by
  obtain ⟨⟨fx, last⟩, hf, h⟩ := Walk.bind_eq_some.1 h
  have hlast : after = last := by
    dsimp only at h
    split at h
    · cases h
      rfl
    · split at h <;> cases h <;> rfl
  rw [hlast, Expression.evalWithin_keeps hf, Environment.setValue_setValue]

theorem advance_keeps {outcome : Except Float (Float × Float)}
    (h : advance depth slope s x fx env = some (outcome, after)) : after = env := by
  obtain ⟨⟨dfx, last⟩, hslope, h⟩ := Walk.bind_eq_some.1 h
  rw [← Expression.evalWithin_keeps hslope]
  dsimp only at h
  split at h
  · cases h
    rfl
  · split at h <;> cases h <;> rfl

theorem iterate_keeps_others (left : Nat) : ∀ {x step r : Float} {env : Environment},
    iterate depth f slope address s left x step env = some (r, after) →
    ∀ y, after.setValue address y = env.setValue address y := by
  induction left with
  | zero =>
    intro x step r env h y
    rw [iterate, Walk.bind_eq_some] at h
    obtain ⟨⟨outcome, last⟩, hvisit, h⟩ := h
    cases outcome <;> cases h <;> exact visit_keeps_others hvisit y
  | succ left ih =>
    intro x step r env h y
    rw [iterate, Walk.bind_eq_some] at h
    obtain ⟨⟨outcome, last⟩, hvisit, h⟩ := h
    rw [← visit_keeps_others hvisit y]
    cases outcome with
    | error result =>
      cases h
      rfl
    | ok fx =>
      obtain ⟨⟨outcome, last'⟩, hadvance, h⟩ := Walk.bind_eq_some.1 h
      obtain rfl := advance_keeps hadvance
      cases outcome with
      | error result =>
        cases h
        rfl
      | ok next => exact ih h y

end RootSearch

namespace Expression

variable {f slope : Expression} {address : Address} {start x : Float} {s : SearchSettings}
  {env after : Environment}

theorem rootByWithin_keeps {depth : Nat}
    (h : f.rootByWithin depth slope address start s env = some (x, after)) : after = env := by
  unfold rootByWithin at h
  split at h
  · cases h
    rfl
  · obtain ⟨⟨r, last⟩, hr, hx⟩ := Option.map_eq_some_iff.1 h
    cases hx
    rw [RootSearch.iterate_keeps_others _ hr, Environment.setValue_value]

theorem root_keeps (h : f.root address start s env = some (x, after)) : after = env := by
  obtain ⟨slope, -, h⟩ := Walk.bind_eq_some.1 h
  exact rootByWithin_keeps h

end Expression

/-- **Evaluation and root search leave the environment as it was**: every slot with its name and
value, every function, whatever the nodes are, and whichever way the search ends. -/
theorem environment_restored (env : Environment) :
    (∀ depth nodes frame pos w, walkAt depth nodes frame env pos = some w → w.env = env) ∧
    (∀ depth (e : Expression) v after, e.evalWithin depth env = some (v, after) → after = env) ∧
    (∀ depth (f slope : Expression) address start s x after,
      f.rootByWithin depth slope address start s env = some (x, after) → after = env) ∧
    ∀ (f : Expression) address start s x after,
      f.root address start s env = some (x, after) → after = env :=
  ⟨fun depth nodes frame pos w hw => walkAt_keeps depth nodes frame env pos w hw,
    fun _ _ _ _ => Expression.evalWithin_keeps, fun _ _ _ _ _ _ _ _ => Expression.rootByWithin_keeps,
    fun _ _ _ _ _ _ => Expression.root_keeps⟩

end

open Series

/-- A variable `i`, and the function `f(x)`, the sum over `i` from 1 to 2 of `x * i`. -/
def loopingStore : Environment where
  slots := #[⟨some "i", 0.5⟩]
  entries :=
    #[⟨⟨"f", 1, (Term.loop .sum ⟨0⟩ (.const 1.0) (.const 2.0)
      (.binary .mul (.arg 0) (.ref ⟨0⟩))).encode⟩, true⟩]

def nestedCalls : Term :=
  .loop .sum ⟨0⟩ (.const 1.0) (.const 2.0)
    (.loop .sum ⟨0⟩ (.const 1.0) (.ref ⟨0⟩) (.call ⟨0⟩ [.ref ⟨0⟩]))

/-- The callee loops over the variable of its caller, the outer product is over an address outside the
store, and the variable of the loops is the one that is searched. -/
theorem loopingStore_restored :
    (∃ w, walkAt 8 nestedCalls.encode.nodes [] loopingStore 0 = some w ∧ w.env = loopingStore) ∧
    (∃ v after, (Term.loop .product ⟨7⟩ (.const 1.0) (.const 3.0) nestedCalls).encode.evalWithin 9
      loopingStore = some (v, after) ∧ after = loopingStore) ∧
    (∃ x after, (Term.binary .sub (.ref ⟨0⟩) (.const 2.0)).encode.rootByWithin 5
      (Term.const 1.0).encode ⟨0⟩ 5.0 .default loopingStore = some (x, after) ∧ after = loopingStore) ∧
    ∃ x after, nestedCalls.encode.root ⟨0⟩ 1.0 .default loopingStore = some (x, after) ∧
      after = loopingStore := by
  obtain ⟨walks, evaluates, searches, finds⟩ := environment_restored loopingStore
  refine ⟨?_, ?_, ?_, ?_⟩
  · obtain ⟨w, hw⟩ := Option.isSome_iff_exists.1
      (show (walkAt 8 nestedCalls.encode.nodes [] loopingStore 0).isSome = true by decide +kernel)
    exact ⟨w, hw, walks _ _ _ _ _ hw⟩
  · obtain ⟨⟨v, after⟩, h⟩ := Option.isSome_iff_exists.1
      (show ((Term.loop .product ⟨7⟩ (.const 1.0) (.const 3.0) nestedCalls).encode.evalWithin 9
        loopingStore).isSome = true by decide +kernel)
    exact ⟨v, after, h, evaluates _ _ _ _ h⟩
  · obtain ⟨⟨x, after⟩, h⟩ := Option.isSome_iff_exists.1
      (show ((Term.binary .sub (.ref ⟨0⟩) (.const 2.0)).encode.rootByWithin 5 (Term.const 1.0).encode
        ⟨0⟩ 5.0 .default loopingStore).isSome = true by decide +kernel)
    exact ⟨x, after, h, searches _ _ _ _ _ _ _ _ h⟩
  · obtain ⟨⟨x, after⟩, h⟩ := Option.isSome_iff_exists.1
      (show (nestedCalls.encode.root ⟨0⟩ 1.0 .default loopingStore).isSome = true by decide +kernel)
    exact ⟨x, after, h, finds _ _ _ _ _ _ h⟩

end PrefixCalculus
