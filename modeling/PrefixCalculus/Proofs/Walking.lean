import PrefixCalculus.Evaluation
set_option autoImplicit false

/-!
Laws of the walk over a buffer, whatever nodes it holds. Main statements: a deeper walk has every
outcome of a shallower one, and every walk gives back the environment it was started with.
-/

namespace PrefixCalculus

namespace Environment

@[simp] theorem setValue_setValue (env : Environment) (a : Address) (x y : Float) :
    (env.setValue a x).setValue a y = env.setValue a y := by
  obtain ⟨slots, entries⟩ := env
  simp only [setValue, Environment.mk.injEq, and_true]
  apply Array.ext_getElem?
  intro i
  simp only [Array.getElem?_modify]
  by_cases h : a.index.toNat = i
  · subst h
    cases hs : slots[a.index.toNat]? <;> simp
  · simp [h]

@[simp] theorem setValue_value (env : Environment) (a : Address) :
    env.setValue a (env.value a) = env := by
  have h := setValue_setValue_value env a (env.value a)
  rwa [setValue_setValue] at h

end Environment

namespace Walk

def Le (s s' : Step) : Prop :=
  ∀ env pos w, s env pos = some w → s' env pos = some w

/-- Every outcome of the step has the environment that the step was started with. -/
def Keeps (s : Step) : Prop :=
  ∀ env pos w, s env pos = some w → w.env = env

theorem bind_eq_some {α β : Type} {x : Option α} {f : α → Option β} {b : β} :
    (x >>= f) = some b ↔ ∃ a, x = some a ∧ f a = some b :=
  Option.bind_eq_some_iff

/-! A deeper walk has every outcome of a shallower one -/

section

variable {s s' : Step} (h : Le s s')
include h

theorem operands_le {count : Nat} : ∀ {env pos r}, operands s count env pos = some r →
    operands s' count env pos = some r := by
  induction count with
  | zero => intro env pos r hr; exact hr
  | succ count ih =>
    intro env pos r hr
    rw [operands, bind_eq_some] at hr ⊢
    obtain ⟨w, hw, hr⟩ := hr
    obtain ⟨rest, hrest, hr⟩ := bind_eq_some.1 hr
    exact ⟨w, h _ _ _ hw, bind_eq_some.2 ⟨rest, ih hrest, hr⟩⟩

section

variable [SpecialFunctions]

theorem unary_le {op : UnaryOp} : Le (unary s op) (unary s' op) := by
  intro env pos w hw
  rw [unary, bind_eq_some] at hw ⊢
  obtain ⟨a, ha, hw⟩ := hw
  exact ⟨a, h _ _ _ ha, hw⟩

theorem binary_le {op : BinaryOp} : Le (binary s op) (binary s' op) := by
  intro env pos w hw
  rw [binary, bind_eq_some] at hw ⊢
  obtain ⟨a, ha, hw⟩ := hw
  obtain ⟨b, hb, hw⟩ := bind_eq_some.1 hw
  exact ⟨a, h _ _ _ ha, bind_eq_some.2 ⟨b, h _ _ _ hb, hw⟩⟩

end

theorem branch_le {nodes : Array Node} : Le (branch nodes s) (branch nodes s') := by
  intro env pos w hw
  rw [branch, bind_eq_some] at hw ⊢
  obtain ⟨c, hc, hw⟩ := hw
  refine ⟨c, h _ _ _ hc, ?_⟩
  split at hw
  · exact hw
  · split at hw
    · exact hw
    · split at hw
      · rename_i hnan
        rwa [if_pos hnan]
      · rename_i hnan
        rw [if_neg hnan]
        obtain ⟨b, hb, hw⟩ := bind_eq_some.1 hw
        exact bind_eq_some.2 ⟨b, h _ _ _ hb, hw⟩

theorem iterate_le {start : Nat} {kind : Fold} {address : Address} {count : Nat} :
    ∀ {range : LoopRange} {acc : Float} {env : Environment} {r : Float × Environment},
      iterate (fun env => s env start) kind address count range acc env = some r →
      iterate (fun env => s' env start) kind address count range acc env = some r := by
  induction count with
  | zero => intro range acc env r hr; exact hr
  | succ count ih =>
    intro range acc env r hr
    rw [iterate] at hr ⊢
    split at hr
    · exact hr
    · obtain ⟨w, hw, hr⟩ := bind_eq_some.1 hr
      exact bind_eq_some.2 ⟨w, h _ _ _ hw, ih hr⟩

theorem loop_le {nodes : Array Node} {kind : Fold} : Le (loop nodes s kind) (loop nodes s' kind) := by
  intro env pos w hw
  rw [loop] at hw ⊢
  split at hw
  · exact hw
  · obtain ⟨lower, hl, hw⟩ := bind_eq_some.1 hw
    obtain ⟨upper, hu, hw⟩ := bind_eq_some.1 hw
    refine bind_eq_some.2 ⟨lower, h _ _ _ hl, bind_eq_some.2 ⟨upper, h _ _ _ hu, ?_⟩⟩
    split at hw
    · exact hw
    · split at hw
      · exact hw
      · obtain ⟨r, hr, hw⟩ := bind_eq_some.1 hw
        refine bind_eq_some.2 ⟨r, ?_, hw⟩
        rw [Environment.binding, Option.map_eq_some_iff] at hr ⊢
        obtain ⟨b, hb, hr⟩ := hr
        exact ⟨b, iterate_le h hb, hr⟩
  · exact hw

theorem call_le {enter enter' : Array Node → Frame → Environment → Option Walk}
    (he : ∀ nodes frame env w, enter nodes frame env = some w → enter' nodes frame env = some w)
    {f : FunctionId} {argc : UInt32} : Le (call s enter f argc) (call s' enter' f argc) := by
  intro env pos w hw
  rw [call, bind_eq_some] at hw ⊢
  obtain ⟨⟨values, env', pos'⟩, hargs, hw⟩ := hw
  refine ⟨_, operands_le h hargs, ?_⟩
  dsimp only at hw ⊢
  split at hw
  · exact hw
  · split at hw
    · rename_i hbad
      rwa [if_pos hbad]
    · rename_i hgood
      rw [if_neg hgood]
      obtain ⟨b, hb, hw⟩ := bind_eq_some.1 hw
      exact bind_eq_some.2 ⟨b, he _ _ _ _ hb, hw⟩

end

/-! A walk gives the environment back -/

section

variable {s : Step} (h : Keeps s)
include h

theorem operands_keeps {count : Nat} : ∀ {env pos values after stop},
    operands s count env pos = some (values, after, stop) → after = env ∧ values.length = count := by
  induction count with
  | zero => intro env pos values after stop hr; cases hr; exact ⟨rfl, rfl⟩
  | succ count ih =>
    intro env pos values after stop hr
    rw [operands, bind_eq_some] at hr
    obtain ⟨w, hw, hr⟩ := hr
    obtain ⟨⟨rest, env', pos'⟩, hrest, hr⟩ := bind_eq_some.1 hr
    cases hr
    obtain ⟨rfl, hlen⟩ := ih hrest
    exact ⟨h _ _ _ hw, by rw [List.length_cons, hlen]⟩

section

variable [SpecialFunctions]

theorem unary_keeps {op : UnaryOp} : Keeps (unary s op) := by
  intro env pos w hw
  rw [unary, bind_eq_some] at hw
  obtain ⟨a, ha, hw⟩ := hw
  have ha := h _ _ _ ha
  cases hw
  exact ha

theorem binary_keeps {op : BinaryOp} : Keeps (binary s op) := by
  intro env pos w hw
  rw [binary, bind_eq_some] at hw
  obtain ⟨a, ha, hw⟩ := hw
  obtain ⟨b, hb, hw⟩ := bind_eq_some.1 hw
  cases hw
  exact (h _ _ _ hb).trans (h _ _ _ ha)

end

theorem branch_keeps {nodes : Array Node} : Keeps (branch nodes s) := by
  intro env pos w hw
  rw [branch, bind_eq_some] at hw
  obtain ⟨c, hc, hw⟩ := hw
  have hc := h _ _ _ hc
  split at hw
  · cases hw
    exact hc
  · split at hw
    · cases hw
      exact hc
    · split at hw
      · cases hw
        exact hc
      · obtain ⟨b, hb, hw⟩ := bind_eq_some.1 hw
        cases hw
        exact (h _ _ _ hb).trans hc

theorem iterate_keeps {start : Nat} {kind : Fold} {address : Address} {count : Nat} :
    ∀ {range : LoopRange} {acc : Float} {env : Environment} {r : Float × Environment},
      iterate (fun env => s env start) kind address count range acc env = some r →
      ∀ x, r.2.setValue address x = env.setValue address x := by
  induction count with
  | zero => intro range acc env r hr x; cases hr; rfl
  | succ count ih =>
    intro range acc env r hr x
    rw [iterate] at hr
    split at hr
    · cases hr
      rfl
    · obtain ⟨w, hw, hr⟩ := bind_eq_some.1 hr
      rw [ih hr x, h _ _ _ hw, Environment.setValue_setValue]

theorem loop_keeps {nodes : Array Node} {kind : Fold} : Keeps (loop nodes s kind) := by
  intro env pos w hw
  rw [loop] at hw
  split at hw
  · cases hw
    rfl
  · obtain ⟨lower, hl, hw⟩ := bind_eq_some.1 hw
    obtain ⟨upper, hu, hw⟩ := bind_eq_some.1 hw
    have hu := (h _ _ _ hu).trans (h _ _ _ hl)
    split at hw
    · cases hw
      exact hu
    · split at hw
      · cases hw
        exact hu
      · obtain ⟨r, hr, hw⟩ := bind_eq_some.1 hw
        rw [Environment.binding, Option.map_eq_some_iff] at hr
        obtain ⟨b, hb, rfl⟩ := hr
        cases hw
        simp only
        rw [iterate_keeps h hb, Environment.setValue_value, hu]
  · cases hw
    rfl

theorem call_keeps {enter : Array Node → Frame → Environment → Option Walk}
    (he : ∀ nodes frame env w, enter nodes frame env = some w → w.env = env)
    {f : FunctionId} {argc : UInt32} : Keeps (call s enter f argc) := by
  intro env pos w hw
  rw [call, bind_eq_some] at hw
  obtain ⟨⟨values, after, stop⟩, hargs, hw⟩ := hw
  obtain ⟨rfl, -⟩ := operands_keeps h hargs
  dsimp only at hw
  split at hw
  · cases hw
    rfl
  · split at hw
    · cases hw
      rfl
    · obtain ⟨b, hb, hw⟩ := bind_eq_some.1 hw
      have hb := he _ _ _ _ hb
      cases hw
      exact hb

end

end Walk

variable [SpecialFunctions]

theorem walkAt_mono {depth more : Nat} (hd : depth ≤ more) (nodes : Array Node) (frame : Frame) :
    Walk.Le (walkAt depth nodes frame) (walkAt more nodes frame) := by
  induction depth generalizing more nodes frame with
  | zero => intro env pos w h; cases h
  | succ depth ih =>
    obtain ⟨more, rfl⟩ : ∃ k, more = k + 1 := ⟨more - 1, by omega⟩
    have hle := fun nodes frame => ih (Nat.le_of_succ_le_succ hd) nodes frame
    intro env pos w h
    rw [walkAt] at h ⊢
    split at h
    · exact h
    · exact h
    · exact h
    · exact h
    · exact Walk.unary_le (hle nodes frame) _ _ _ h
    · exact Walk.binary_le (hle nodes frame) _ _ _ h
    · exact Walk.branch_le (hle nodes frame) _ _ _ h
    · exact Walk.loop_le (hle nodes frame) _ _ _ h
    · exact Walk.call_le (hle nodes frame) (fun nodes frame env => hle nodes frame env 0) _ _ _ h
    · exact h
    · exact h

/-- A walk over any nodes gives back the environment it was started with. -/
theorem walkAt_keeps (depth : Nat) (nodes : Array Node) (frame : Frame) :
    Walk.Keeps (walkAt depth nodes frame) := by
  induction depth generalizing nodes frame with
  | zero => intro env pos w h; cases h
  | succ depth ih =>
    intro env pos w h
    rw [walkAt] at h
    split at h
    · cases h; rfl
    · cases h; rfl
    · cases h; rfl
    · cases h; rfl
    · exact Walk.unary_keeps (ih nodes frame) _ _ _ h
    · exact Walk.binary_keeps (ih nodes frame) _ _ _ h
    · exact Walk.branch_keeps (ih nodes frame) _ _ _ h
    · exact Walk.loop_keeps (ih nodes frame) _ _ _ h
    · exact Walk.call_keeps (ih nodes frame) (fun nodes frame env => ih nodes frame env 0) _ _ _ h
    · cases h; rfl
    · cases h; rfl

end PrefixCalculus
