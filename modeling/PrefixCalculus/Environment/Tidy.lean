import PrefixCalculus.Environment
set_option autoImplicit false

/-!
What every environment that grew from the empty one has in common: names and bound functions are not
found twice, and the last slot is in use. Main statement: a name and its slot determine each other.
-/

namespace PrefixCalculus

namespace Environment

def Holds (env : Environment) (i : Nat) (name : String) : Prop :=
  ∃ slot, env.slots[i]? = some slot ∧ slot.name = some name

def Binds (env : Environment) (i : Nat) (name : String) : Prop :=
  ∃ entry, env.entries[i]? = some entry ∧ entry.bound = true ∧ entry.function.name = name

structure Tidy (env : Environment) : Prop where
  /-- No name has two slots. -/
  holds_inj : ∀ {i j : Nat} {name : String}, env.Holds i name → env.Holds j name → i = j
  /-- The store ends with a slot in use. -/
  last_named : ∀ slot, env.slots.back? = some slot → slot.name ≠ none
  /-- No name finds two functions. -/
  binds_inj : ∀ {i j : Nat} {name : String}, env.Binds i name → env.Binds j name → i = j

theorem tidy_empty : Tidy empty where
  holds_inj := by rintro i j name ⟨slot, h, _⟩; simp [empty] at h
  last_named := by intro slot h; simp [empty] at h
  binds_inj := by rintro i j name ⟨entry, h, _⟩; simp [empty] at h

theorem holds_of_slotOf? {env : Environment} {name : String} {i : Nat}
    (h : env.slotOf? name = some i) : env.Holds i name := by
  obtain ⟨hi, hn, _⟩ := Array.findIdx?_eq_some_iff_getElem.1 h
  exact ⟨env.slots[i], Array.getElem?_eq_getElem hi, by simpa using hn⟩

theorem Tidy.slotOf?_eq_some_iff {env : Environment} (tidy : env.Tidy) {name : String} {i : Nat} :
    env.slotOf? name = some i ↔ env.Holds i name := by
  refine ⟨holds_of_slotOf?, fun h => ?_⟩
  cases hs : env.slotOf? name with
  | some j => rw [tidy.holds_inj (holds_of_slotOf? hs) h]
  | none =>
    obtain ⟨slot, hslot, hname⟩ := h
    have hm : slot ∈ env.slots := Array.mem_of_getElem? hslot
    have := Array.findIdx?_eq_none_iff.1 hs slot hm
    simp [hname] at this

end Environment

end PrefixCalculus
