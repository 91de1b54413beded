import PrefixCalculus.Proofs.Allocation
set_option autoImplicit false

/-!
What becomes of the variables when names are only looked up or given places, in any environment, tidy
or not. Main statement: a name that had an address keeps it together with its value, and a new one
reads NaN.
-/

namespace PrefixCalculus

namespace Environment

/-- Names were only added: a slot in use is as it was, and one that came into use holds NaN under a
name that was not known. -/
structure Adds (env after : Environment) : Prop where
  kept : ∀ {i : Nat}, env.nameAt? i ≠ none → after.slots[i]? = env.slots[i]?
  added : ∀ {i : Nat} {name : String}, env.nameAt? i = none → after.nameAt? i = some name →
    env.lookup? name = none ∧ after.slots[i]? = some ⟨some name, nan⟩

section

variable {env mid after : Environment} {name : String}

theorem slotOf?_lt_capacity {i : Nat} (h : env.slotOf? name = some i) : i < env.capacity :=
  lt_capacity_of_nameAt? (slotOf?_eq_some_iff.1 h).1

theorem index_lt_capacity {a : Address} (h : env.lookup? name = some a) :
    a.index.toNat < env.capacity := by
  obtain ⟨i, hi, rfl⟩ := Option.map_eq_some_iff.1 h
  exact Nat.lt_of_le_of_lt (Nat.mod_le ..) (slotOf?_lt_capacity hi)

namespace Adds

theorem of_slots (h : after.slots = env.slots) : env.Adds after where
  kept _ := by rw [h]
  added hfree hname := by rw [Environment.nameAt?, h] at hname; cases hfree.symm.trans hname

theorem refl (env : Environment) : env.Adds env :=
  .of_slots rfl

theorem nameAt? (h : env.Adds after) {i : Nat} (hi : env.nameAt? i = some name) :
    after.nameAt? i = some name := by
  rw [← hi, Environment.nameAt?, Environment.nameAt?, h.kept (by rw [hi]; exact Option.some_ne_none _)]

theorem slotOf? (h : env.Adds after) {i : Nat} (hi : env.slotOf? name = some i) :
    after.slotOf? name = some i := by
  obtain ⟨hname, hfirst⟩ := slotOf?_eq_some_iff.1 hi
  refine slotOf?_eq_some_iff.2 ⟨h.nameAt? hname, fun j hj hafter => ?_⟩
  cases hj' : env.nameAt? j with
  | none => exact lookup?_eq_none_iff.1 (h.added hj' hafter).1 i hname
  | some other =>
    rw [h.nameAt? hj', Option.some.injEq] at hafter
    exact hfirst j hj (by rw [hj', hafter])

theorem lookup? (h : env.Adds after) {a : Address} (ha : env.lookup? name = some a) :
    after.lookup? name = some a := by
  obtain ⟨i, hi, rfl⟩ := Option.map_eq_some_iff.1 ha
  exact Option.map_eq_some_iff.2 ⟨i, h.slotOf? hi, rfl⟩

theorem slots (h : env.Adds after) {i : Nat} (hi : env.slotOf? name = some i) :
    after.slots[i]? = env.slots[i]? :=
  h.kept (by rw [(slotOf?_eq_some_iff.1 hi).1]; exact Option.some_ne_none _)

theorem slots_of_new (h : env.Adds after) (hnew : env.slotOf? name = none) {i : Nat}
    (hi : after.slotOf? name = some i) : after.slots[i]? = some ⟨some name, nan⟩ := by
  have hname := (slotOf?_eq_some_iff.1 hi).1
  have hunknown : env.lookup? name = none := by rw [Environment.lookup?, hnew, Option.map_none]
  cases hfree : env.nameAt? i with
  | none => exact (h.added hfree hname).2
  | some other =>
    rw [h.nameAt? hfree, Option.some.injEq] at hname
    subst hname
    exact absurd hfree (lookup?_eq_none_iff.1 hunknown i)

theorem lookup?_eq_none (h : env.Adds after) (hnone : after.lookup? name = none) :
    env.lookup? name = none := by
  cases ha : env.lookup? name with
  | none => rfl
  | some a => rw [h.lookup? ha] at hnone; cases hnone

theorem trans (h : env.Adds mid) (h' : mid.Adds after) : env.Adds after where
  kept {i} hi := by
    obtain ⟨name, hname⟩ := Option.ne_none_iff_exists'.1 hi
    rw [h'.kept (by rw [h.nameAt? hname]; exact Option.some_ne_none _), h.kept hi]
  added {i name} hfree hname := by
    cases hmid : mid.nameAt? i with
    | none => exact ⟨h.lookup?_eq_none (h'.added hmid hname).1, (h'.added hmid hname).2⟩
    | some other =>
      rw [h'.nameAt? hmid, Option.some.injEq] at hname
      subst hname
      rw [h'.kept (by rw [hmid]; exact Option.some_ne_none _)]
      exact h.added hfree hmid

end Adds

theorem value_ofNat {i : Nat} (small : i < UInt32.size) :
    env.value ⟨UInt32.ofNat i⟩ = ((env.slots[i]?).map Slot.value).getD nan := by
  have hnumber : (UInt32.ofNat i).toNat = i := UInt32.toNat_ofNat_of_lt small
  rw [value, hnumber]
  cases env.slots[i]? <;> rfl

/-- Every name keeps its place and what is there, and names that are new read NaN. The values can be
read at the addresses as long as these are enough for the slots. -/
structure KeepsVariables (env after : Environment) : Prop where
  slot : ∀ {name : String} {i : Nat}, env.slotOf? name = some i →
    after.slotOf? name = some i ∧ after.slots[i]? = env.slots[i]?
  slot_of_new : ∀ {name : String} {i : Nat}, env.slotOf? name = none →
    after.slotOf? name = some i → after.slots[i]? = some ⟨some name, nan⟩
  lookup? : ∀ {name : String} {a : Address}, env.lookup? name = some a →
    after.lookup? name = some a
  value : after.capacity ≤ UInt32.size → ∀ {name : String} {a : Address},
    env.lookup? name = some a → after.value a = env.value a
  value_of_new : after.capacity ≤ UInt32.size → ∀ {name : String} {a : Address},
    env.lookup? name = none → after.lookup? name = some a → after.value a = nan

theorem Adds.keepsVariables (h : env.Adds after) : env.KeepsVariables after where
  slot hi := ⟨h.slotOf? hi, h.slots hi⟩
  slot_of_new hnew hi := h.slots_of_new hnew hi
  lookup? := h.lookup?
  value small {name a} ha := by
    obtain ⟨i, hi, rfl⟩ := Option.map_eq_some_iff.1 ha
    have hlt : i < UInt32.size := Nat.lt_of_lt_of_le (slotOf?_lt_capacity (h.slotOf? hi)) small
    rw [value_ofNat hlt, value_ofNat hlt, h.slots hi]
  value_of_new small {name a} hnew ha := by
    obtain ⟨i, hi, rfl⟩ := Option.map_eq_some_iff.1 ha
    have hlt : i < UInt32.size := Nat.lt_of_lt_of_le (slotOf?_lt_capacity hi) small
    rw [value_ofNat hlt, h.slots_of_new (Option.map_eq_none_iff.1 hnew) hi]
    rfl

/-! A name that is given a place -/

theorem adds_allocate (h : env.lookup? name = none) : env.Adds (env.allocate name).2 where
  kept {i} hi := by
    rw [slots_allocate, if_neg]
    rintro rfl
    exact hi nameAt?_freshIndex
  added {i other} hfree hname := by
    rw [nameAt?_allocate] at hname
    split at hname
    · rename_i hi
      cases hname
      exact ⟨h, by rw [slots_allocate, if_pos hi]⟩
    · rw [hfree] at hname
      cases hname

theorem lookup?_allocate (h : env.lookup? name = none) :
    (env.allocate name).2.lookup? name = some (env.allocate name).1 := by
  rw [lookup?_eq_none_iff] at h
  have hslot : (env.allocate name).2.slotOf? name = some env.freshIndex := by
    refine slotOf?_eq_some_iff.2 ⟨by rw [nameAt?_allocate, if_pos rfl], fun j hj => ?_⟩
    rw [nameAt?_allocate, if_neg (Nat.ne_of_lt hj)]
    exact h j
  rw [lookup?, hslot, allocate_fst, Option.map_some]

theorem entries_resolve (env : Environment) (name : String) :
    (env.resolve name).2.entries = env.entries := by
  rw [resolve]
  split
  · rfl
  · exact entries_allocate name

theorem adds_resolve (env : Environment) (name : String) : env.Adds (env.resolve name).2 := by
  rw [resolve]
  split
  · exact .refl env
  · rename_i h
    exact adds_allocate h

theorem lookup?_resolve (env : Environment) (name : String) :
    (env.resolve name).2.lookup? name = some (env.resolve name).1 := by
  rw [resolve]
  split
  · rename_i h
    exact h
  · rename_i h
    exact lookup?_allocate h

end

end Environment

end PrefixCalculus
