import PrefixCalculus.Environment.Tidy
set_option autoImplicit false

/-!
The functions of an environment place by place, tidy or not. Main statements: a definition, and also a
removal, is an update of one place, which changes what one name finds; a name keeps its place when it
is defined again, and a new name gets a place of its own.
-/

namespace PrefixCalculus

namespace Environment

section

variable {env mid after : Environment} {name other : String}

theorem entryOf?_eq_some_iff {i : Nat} :
    env.entryOf? name = some i ↔ env.Binds i name ∧ ∀ j, j < i → ¬ env.Binds j name := by
  have hbinds : ∀ j (hj : j < env.entries.size), env.Binds j name ↔
      (env.entries[j].bound && env.entries[j].function.name == name) = true := by
    intro j hj
    simp [Binds, Array.getElem?_eq_getElem hj]
  rw [entryOf?, Array.findIdx?_eq_some_iff_getElem]
  constructor
  · rintro ⟨hi, hfound, hfirst⟩
    refine ⟨(hbinds i hi).2 hfound, fun j hj => ?_⟩
    rw [hbinds j (Nat.lt_trans hj hi)]
    exact hfirst j hj
  · rintro ⟨hbound, hfirst⟩
    obtain ⟨entry, hentry, -⟩ := id hbound
    have hi := (Array.getElem?_eq_some_iff.1 hentry).1
    refine ⟨hi, (hbinds i hi).1 hbound, fun j hj => ?_⟩
    rw [← hbinds j (Nat.lt_trans hj hi)]
    exact hfirst j hj

theorem entryOf?_eq_none_iff : env.entryOf? name = none ↔ ∀ i, ¬ env.Binds i name := by
  constructor
  · rintro h i ⟨entry, hentry, hbound, hname⟩
    have hnot := Array.findIdx?_eq_none_iff.1 h entry (Array.mem_of_getElem? hentry)
    simp [hbound, hname] at hnot
  · intro h
    refine Array.findIdx?_eq_none_iff.2 fun entry hentry => ?_
    obtain ⟨i, hi⟩ := Array.getElem?_of_mem hentry
    have hnot := h i
    simp only [Binds, hi, Option.some.injEq, exists_eq_left', not_and] at hnot
    simpa using hnot

theorem binds_of_entryOf? {i : Nat} (h : env.entryOf? name = some i) : env.Binds i name :=
  (entryOf?_eq_some_iff.1 h).1

theorem lt_functionCount_of_binds {i : Nat} (h : env.Binds i name) : i < env.functionCount := by
  obtain ⟨entry, hentry, -⟩ := h
  exact (Array.getElem?_eq_some_iff.1 hentry).1

theorem Binds.name_eq {i : Nat} (h : env.Binds i name) (h' : env.Binds i other) : name = other := by
  obtain ⟨entry, hentry, -, rfl⟩ := h
  obtain ⟨entry', hentry', -, rfl⟩ := h'
  rw [hentry, Option.some.injEq] at hentry'
  rw [hentry']

/-- What a name finds depends on the places that are bound to it only. -/
theorem entryOf?_congr (h : ∀ i, after.Binds i name ↔ env.Binds i name) :
    after.entryOf? name = env.entryOf? name := by
  apply Option.ext
  intro i
  simp only [entryOf?_eq_some_iff, h]

theorem entryOf?_of_entries (h : after.entries = env.entries) (name : String) :
    after.entryOf? name = env.entryOf? name := by
  rw [entryOf?, entryOf?, h]

/-- Names find the functions they found, and these take as many arguments. -/
structure SameSignatures (env after : Environment) : Prop where
  functionId? : ∀ name, after.functionId? name = env.functionId? name
  argc : ∀ f, (after.function? f).map Function.argc = (env.function? f).map Function.argc

theorem SameSignatures.of_entries (h : after.entries = env.entries) : env.SameSignatures after where
  functionId? name := by
    rw [Environment.functionId?, Environment.functionId?, entryOf?_of_entries h]
  argc f := by rw [function?, function?, h]

/-! The place of a name -/

def placeFor (env : Environment) (name : String) : Nat :=
  (env.entryOf? name).getD env.functionCount

theorem placeFor_of_entryOf? {i : Nat} (h : env.entryOf? name = some i) :
    env.placeFor name = i := by
  rw [placeFor, h, Option.getD_some]

theorem placeFor_of_new (h : env.entryOf? name = none) : env.placeFor name = env.functionCount := by
  rw [placeFor, h, Option.getD_none]

theorem binds_placeFor (env : Environment) (name : String) :
    env.Binds (env.placeFor name) name ∨ env.placeFor name = env.functionCount := by
  cases h : env.entryOf? name with
  | none => exact .inr (placeFor_of_new h)
  | some i =>
    rw [placeFor_of_entryOf? h]
    exact .inl (binds_of_entryOf? h)

theorem placeFor_le (env : Environment) (name : String) : env.placeFor name ≤ env.functionCount := by
  rcases env.binds_placeFor name with h | h
  · exact Nat.le_of_lt (lt_functionCount_of_binds h)
  · exact Nat.le_of_eq h

theorem not_binds_of_lt_placeFor {i : Nat} (h : i < env.placeFor name) : ¬ env.Binds i name := by
  cases hname : env.entryOf? name with
  | none => exact entryOf?_eq_none_iff.1 hname i
  | some j =>
    rw [placeFor_of_entryOf? hname] at h
    exact (entryOf?_eq_some_iff.1 hname).2 i h

theorem ne_placeFor {i : Nat} {entry : Entry} (hi : env.entries[i]? = some entry)
    (h : ¬ env.Binds i name) : i ≠ env.placeFor name := by
  rintro rfl
  rcases env.binds_placeFor name with hbinds | hnew
  · exact h hbinds
  · have hlt := (Array.getElem?_eq_some_iff.1 hi).1
    rw [functionCount] at hnew
    omega

/-! Updates -/

/-- The second registry is the first with the entry in the place of its name. -/
def Updates (env after : Environment) (entry : Entry) : Prop :=
  ∀ i, after.entries[i]?
    = if i = env.placeFor entry.function.name then some entry else env.entries[i]?

def vacated (name : String) : Entry :=
  ⟨⟨name, 0, Expression.null⟩, false⟩

@[simp] theorem slots_define (argc : UInt32) (body : Expression) :
    (env.define name argc body).2.slots = env.slots := by
  rw [define]
  split <;> rfl

theorem define_fst (argc : UInt32) (body : Expression) :
    (env.define name argc body).1 = ⟨UInt32.ofNat (env.placeFor name)⟩ := by
  rw [define]
  split
  · rename_i i h
    rw [placeFor_of_entryOf? h]
  · rename_i h
    rw [placeFor_of_new h, functionCount]

theorem updates_define (env : Environment) (function : Function) :
    env.Updates (env.define function.name function.argc function.body).2 ⟨function, true⟩ := by
  intro i
  rw [define]
  split
  · rename_i k h
    have hk : k < env.entries.size := lt_functionCount_of_binds (binds_of_entryOf? h)
    simp only [placeFor_of_entryOf? h, Array.getElem?_setIfInBounds, hk, if_true, eq_comm]
  · rename_i h
    simp only [placeFor_of_new h, functionCount, Array.getElem?_push]

theorem remove?_eq_some_iff : env.remove? name = some after ↔ ∃ i, env.entryOf? name = some i ∧
    after = { env with entries := env.entries.setIfInBounds i (vacated name) } := by
  rw [remove?, Option.map_eq_some_iff]
  simp only [eq_comm, vacated]

theorem slots_remove? (h : env.remove? name = some after) : after.slots = env.slots := by
  obtain ⟨i, -, rfl⟩ := remove?_eq_some_iff.1 h
  rfl

theorem updates_remove? (h : env.remove? name = some after) : env.Updates after (vacated name) := by
  obtain ⟨k, hk, rfl⟩ := remove?_eq_some_iff.1 h
  have hlt : k < env.entries.size := lt_functionCount_of_binds (binds_of_entryOf? hk)
  have hplace : env.placeFor (vacated name).function.name = k := placeFor_of_entryOf? hk
  intro i
  simp only [hplace, Array.getElem?_setIfInBounds, hlt, if_true, eq_comm]

namespace Updates

variable {entry entry' : Entry}

theorem of_entries (h : env.Updates mid entry) (hentries : after.entries = mid.entries) :
    env.Updates after entry :=
  fun i => by rw [hentries, h i]

theorem entries_self (h : env.Updates after entry) :
    after.entries[env.placeFor entry.function.name]? = some entry := by
  rw [h, if_pos rfl]

theorem entries_of_ne (h : env.Updates after entry) {i : Nat}
    (hi : i ≠ env.placeFor entry.function.name) : after.entries[i]? = env.entries[i]? := by
  rw [h, if_neg hi]

theorem entryOf?_of_ne (h : env.Updates after entry) (hother : other ≠ entry.function.name) :
    after.entryOf? other = env.entryOf? other := by
  refine entryOf?_congr fun i => ?_
  rw [Binds, h i]
  split
  · rename_i hi
    refine iff_of_false ?_ fun hbinds => ?_
    · rintro ⟨found, hfound, -, hname⟩
      cases hfound
      exact hother hname.symm
    · obtain ⟨found, hfound, -⟩ := id hbinds
      refine ne_placeFor hfound (fun hbinds' => ?_) hi
      exact hother (hbinds.name_eq hbinds')
  · rfl

theorem binds_lt_placeFor (h : env.Updates after entry) {i : Nat}
    (hi : i < env.placeFor entry.function.name) : ¬ after.Binds i entry.function.name := by
  rw [Binds, h.entries_of_ne (Nat.ne_of_lt hi), ← Binds]
  exact not_binds_of_lt_placeFor hi

theorem entryOf?_self (h : env.Updates after entry) (hbound : entry.bound = true) :
    after.entryOf? entry.function.name = some (env.placeFor entry.function.name) :=
  entryOf?_eq_some_iff.2 ⟨⟨entry, h.entries_self, hbound, rfl⟩, fun _ => h.binds_lt_placeFor⟩

theorem entryOf?_of_new (h : env.Updates after entry) (hbound : entry.bound = false)
    (hnew : env.entryOf? entry.function.name = none) :
    after.entryOf? entry.function.name = none := by
  refine entryOf?_eq_none_iff.2 fun i => ?_
  rw [Binds, h i]
  split
  · rintro ⟨found, hfound, hfound', -⟩
    cases hfound
    rw [hbound] at hfound'
    cases hfound'
  · exact entryOf?_eq_none_iff.1 hnew i

theorem placeFor_eq (h : env.Updates mid entry) (hbound : entry.bound = true) :
    mid.placeFor entry.function.name = env.placeFor entry.function.name :=
  placeFor_of_entryOf? (h.entryOf?_self hbound)

theorem trans (h : env.Updates mid entry) (hbound : entry.bound = true)
    (h' : mid.Updates after entry') (hname : entry'.function.name = entry.function.name) :
    env.Updates after entry' := by
  intro i
  rw [h' i, hname, h.placeFor_eq hbound, h i]
  split <;> rfl

theorem functionCount_le (h : env.Updates after entry) : env.functionCount ≤ after.functionCount := by
  refine Nat.le_of_not_lt fun hlt => ?_
  have hnone : after.entries[after.functionCount]? = none := Array.getElem?_eq_none (Nat.le_refl _)
  rw [h] at hnone
  split at hnone
  · cases hnone
  · rw [Array.getElem?_eq_getElem hlt] at hnone
    cases hnone

section

variable {function function' : Function}

theorem functionId?_self (h : env.Updates after ⟨function, true⟩) :
    after.functionId? function.name = some ⟨UInt32.ofNat (env.placeFor function.name)⟩ := by
  rw [functionId?, h.entryOf?_self rfl, Option.map_some]

theorem functionId?_of_ne (h : env.Updates after entry) (hother : other ≠ entry.function.name) :
    after.functionId? other = env.functionId? other := by
  rw [functionId?, functionId?, h.entryOf?_of_ne hother]

theorem sameSignatures (h : env.Updates mid ⟨function, true⟩)
    (h' : mid.Updates after ⟨function', true⟩) (hname : function'.name = function.name)
    (hargc : function'.argc = function.argc) :
    mid.SameSignatures after where
  functionId? other := by
    by_cases hother : other = function'.name
    · rw [hother, h'.functionId?_self, hname, h.placeFor_eq rfl, h.functionId?_self]
    · exact h'.functionId?_of_ne hother
  argc f := by
    rw [function?, function?, h' _, hname, h.placeFor_eq rfl]
    split
    · rename_i hf
      rw [h _, if_pos hf, Option.map_some, Option.map_some, Option.map_some, Option.map_some, hargc]
    · rfl

end

end Updates

/-! Identifiers -/

/-- The identifier is what the name finds, as before or for the first time, and denotes the function;
no other name finds another function and no other identifier denotes another one. The identifiers
denote the places as long as they are enough for them. -/
structure Rebinds (env after : Environment) (function : Function) (id : FunctionId) : Prop where
  functionId?_self : after.functionId? function.name = some id
  functionId?_of_ne : ∀ {other : String}, other ≠ function.name →
    after.functionId? other = env.functionId? other
  kept_or_new : env.functionId? function.name = some id ∨
    env.functionId? function.name = none ∧ id = ⟨UInt32.ofNat env.functionCount⟩
  function?_self : env.functionCount < UInt32.size → after.function? id = some function
  function?_of_ne : env.functionCount < UInt32.size → ∀ {f : FunctionId}, f ≠ id →
    after.function? f = env.function? f
  unused : env.functionCount < UInt32.size → env.functionId? function.name = none →
    env.function? id = none

theorem Updates.rebinds {function : Function} (h : env.Updates after ⟨function, true⟩) :
    env.Rebinds after function ⟨UInt32.ofNat (env.placeFor function.name)⟩ := by
  have hnumber (small : env.functionCount < UInt32.size) :
      (UInt32.ofNat (env.placeFor function.name)).toNat = env.placeFor function.name :=
    UInt32.toNat_ofNat_of_lt (Nat.lt_of_le_of_lt (env.placeFor_le _) small)
  refine ⟨h.functionId?_self, h.functionId?_of_ne, ?_, fun small => ?_, fun small f hf => ?_,
    fun small hnew => ?_⟩
  · rw [functionId?, placeFor]
    cases env.entryOf? function.name with
    | none => exact .inr ⟨rfl, rfl⟩
    | some i => exact .inl rfl
  · rw [function?, hnumber small, h.entries_self, Option.map_some]
  · rw [function?, function?, h.entries_of_ne]
    intro hplace
    have hplace : f.index.toNat = env.placeFor function.name := hplace
    exact hf (by rw [← hplace, UInt32.ofNat_toNat])
  · rw [functionId?, Option.map_eq_none_iff] at hnew
    rw [function?, hnumber small, placeFor_of_new hnew, functionCount,
      Array.getElem?_eq_none (Nat.le_refl _), Option.map_none]

end

end Environment

end PrefixCalculus
