import PrefixCalculus.Environment.Tidy
import PrefixCalculus.Proofs.Walking
set_option autoImplicit false

/-!
The variables of an environment as an allocator of addresses. Every command on them is described by
what it does to the slots one by one; from that, tidiness is kept by each command and so by every run.
Main statement: after any commands names and addresses determine each other, a fresh name gets the
smallest number that is not in use, the last slot is in use, deleting a name touches no other, and a
name keeps its address until it is deleted.
-/

namespace PrefixCalculus

namespace Environment

/-! Slots one by one -/

def nameAt? (env : Environment) (i : Nat) : Option String :=
  env.slots[i]?.bind Slot.name

def freshIndex (env : Environment) : Nat :=
  (env.slots.findIdx? fun slot => slot.name.isNone).getD env.slots.size

section

variable {env : Environment}

theorem holds_iff {i : Nat} {name : String} : env.Holds i name ↔ env.nameAt? i = some name :=
  Option.bind_eq_some_iff.symm

theorem lt_capacity_of_nameAt? {i : Nat} {name : String} (h : env.nameAt? i = some name) :
    i < env.capacity := by
  obtain ⟨slot, hslot, -⟩ := Option.bind_eq_some_iff.1 h
  exact (Array.getElem?_eq_some_iff.1 hslot).1

theorem Tidy.nameAt?_inj (tidy : env.Tidy) {i j : Nat} {name : String}
    (hi : env.nameAt? i = some name) (hj : env.nameAt? j = some name) : i = j :=
  tidy.holds_inj (holds_iff.2 hi) (holds_iff.2 hj)

theorem slots_setValue (a : Address) (v : Float) (i : Nat) :
    (env.setValue a v).slots[i]?
      = if a.index.toNat = i then env.slots[i]?.map fun slot => { slot with value := v }
        else env.slots[i]? := by
  rw [setValue, Array.getElem?_modify]

@[simp] theorem nameAt?_setValue (a : Address) (v : Float) (i : Nat) :
    (env.setValue a v).nameAt? i = env.nameAt? i := by
  rw [nameAt?, nameAt?, slots_setValue]
  split
  · cases env.slots[i]? <;> rfl
  · rfl

theorem nameAt?_of_lt {i : Nat} (h : i < env.slots.size) : env.nameAt? i = env.slots[i].name := by
  rw [nameAt?, Array.getElem?_eq_getElem h, Option.bind_some]

theorem slotOf?_eq_some_iff {name : String} {i : Nat} :
    env.slotOf? name = some i ↔
      env.nameAt? i = some name ∧ ∀ j, j < i → env.nameAt? j ≠ some name := by
  rw [slotOf?, Array.findIdx?_eq_some_iff_getElem]
  constructor
  · rintro ⟨hi, hname, hfirst⟩
    refine ⟨by simpa [nameAt?_of_lt hi] using hname, fun j hj => ?_⟩
    simpa [nameAt?_of_lt (Nat.lt_trans hj hi)] using hfirst j hj
  · rintro ⟨hname, hfirst⟩
    have hi : i < env.slots.size := lt_capacity_of_nameAt? hname
    refine ⟨hi, by simpa [nameAt?_of_lt hi] using hname, fun j hj => ?_⟩
    simpa [nameAt?_of_lt (Nat.lt_trans hj hi)] using hfirst j hj

theorem lookup?_eq_none_iff {name : String} :
    env.lookup? name = none ↔ ∀ i, env.nameAt? i ≠ some name := by
  rw [lookup?, Option.map_eq_none_iff, slotOf?, Array.findIdx?_eq_none_iff]
  constructor
  · intro h i hi
    have hlt : i < env.slots.size := lt_capacity_of_nameAt? hi
    have hnot := h _ (Array.getElem_mem hlt)
    rw [nameAt?_of_lt hlt] at hi
    simp [hi] at hnot
  · intro h slot hslot
    obtain ⟨i, hi, rfl⟩ := Array.getElem_of_mem hslot
    simpa [nameAt?_of_lt hi] using h i

theorem nameAt?_freshIndex : env.nameAt? env.freshIndex = none := by
  rw [freshIndex]
  cases h : env.slots.findIdx? fun slot => slot.name.isNone with
  | none => simp [nameAt?]
  | some i =>
    obtain ⟨hi, hnone, -⟩ := Array.findIdx?_eq_some_iff_getElem.1 h
    rw [Option.getD_some, nameAt?_of_lt hi]
    exact Option.isNone_iff_eq_none.1 hnone

theorem nameAt?_ne_none_of_lt {i : Nat} (h : i < env.freshIndex) : env.nameAt? i ≠ none := by
  rw [freshIndex] at h
  cases hfind : env.slots.findIdx? fun slot => slot.name.isNone with
  | none =>
    rw [hfind, Option.getD_none] at h
    have hnamed := Array.findIdx?_eq_none_iff.1 hfind _ (Array.getElem_mem h)
    rw [nameAt?_of_lt h]
    exact Option.isNone_eq_false_iff.1 hnamed |> Option.isSome_iff_ne_none.1
  | some k =>
    rw [hfind, Option.getD_some] at h
    obtain ⟨hk, -, hbefore⟩ := Array.findIdx?_eq_some_iff_getElem.1 hfind
    rw [nameAt?_of_lt (Nat.lt_trans h hk), Ne, ← Option.isNone_iff_eq_none]
    exact hbefore i h

theorem freshIndex_le : env.freshIndex ≤ env.capacity :=
  Nat.le_of_not_lt fun h => nameAt?_ne_none_of_lt h (by simp [nameAt?, capacity])

theorem slots_allocate (name : String) (i : Nat) :
    (env.allocate name).2.slots[i]?
      = if i = env.freshIndex then some ⟨some name, nan⟩ else env.slots[i]? := by
  rw [allocate, freshIndex]
  cases h : env.slots.findIdx? fun slot => slot.name.isNone with
  | none => simp only [Array.getElem?_push, Option.getD_none]
  | some k =>
    obtain ⟨hk, -⟩ := Array.findIdx?_eq_some_iff_getElem.1 h
    simp only [Array.getElem?_setIfInBounds, Option.getD_some, hk, if_true, eq_comm]

theorem entries_allocate (name : String) :
    (env.allocate name).2.entries = env.entries := by
  rw [allocate]
  split <;> rfl

theorem capacity_allocate (name : String) :
    (env.allocate name).2.capacity = max env.capacity (env.freshIndex + 1) := by
  rw [allocate, freshIndex, capacity]
  cases h : env.slots.findIdx? fun slot => slot.name.isNone with
  | none => simp [capacity]
  | some k =>
    obtain ⟨hk, -⟩ := Array.findIdx?_eq_some_iff_getElem.1 h
    simp only [Array.size_setIfInBounds, capacity, Option.getD_some]
    omega

theorem allocate_fst (name : String) :
    (env.allocate name).1 = ⟨UInt32.ofNat env.freshIndex⟩ := by
  rw [allocate, freshIndex]
  cases env.slots.findIdx? fun slot => slot.name.isNone <;> rfl

theorem nameAt?_allocate (name : String) (i : Nat) :
    (env.allocate name).2.nameAt? i
      = if i = env.freshIndex then some name else env.nameAt? i := by
  rw [nameAt?, slots_allocate]
  split <;> rfl

end

theorem exists_append_popWhile {α : Type} (p : α → Bool) (xs : Array α) :
    ∃ dropped, xs = xs.popWhile p ++ dropped ∧ (∀ x ∈ dropped, p x = true) ∧
      ∀ x, (xs.popWhile p).back? = some x → p x = false := by
  obtain ⟨l⟩ := xs
  rw [List.popWhile_toArray]
  refine ⟨(l.reverse.takeWhile p).reverse.toArray, ?_, ?_, ?_⟩
  · rw [List.append_toArray, ← List.reverse_append, List.takeWhile_append_dropWhile,
      List.reverse_reverse]
  · intro x hx
    rw [List.mem_toArray, List.mem_reverse] at hx
    exact List.all_eq_true.1 List.all_takeWhile x hx
  · intro x hx
    rw [List.back?_toArray, List.getLast?_reverse] at hx
    have hhead := List.head?_dropWhile_not p l.reverse
    rwa [hx] at hhead

section

variable {env after : Environment} {name : String} {i : Nat} (hi : env.slotOf? name = some i)
  (h : env.delete? name = some after)
include hi h

/-- The freed slot and the free slots that are dropped from the end. -/
theorem exists_slots_delete? : ∃ dropped,
    env.slots.setIfInBounds i ⟨none, nan⟩ = after.slots ++ dropped ∧
      (∀ slot ∈ dropped, slot.name = none) ∧
      ∀ slot, after.slots.back? = some slot → slot.name ≠ none := by
  obtain ⟨dropped, happend, hdropped, hlast⟩ := exists_append_popWhile
    (fun slot : Slot => slot.name.isNone) (env.slots.setIfInBounds i ⟨none, nan⟩)
  rw [delete?, hi] at h
  cases h
  refine ⟨dropped, happend, fun slot hslot => Option.isNone_iff_eq_none.1 (hdropped slot hslot), ?_⟩
  intro slot hslot hnone
  rw [← Option.isNone_iff_eq_none, hlast slot hslot] at hnone
  cases hnone

theorem nameAt?_delete? (j : Nat) :
    after.nameAt? j = if j = i then none else env.nameAt? j := by
  obtain ⟨dropped, happend, hdropped, -⟩ := exists_slots_delete? hi h
  have hin : i < env.slots.size := (Array.findIdx?_eq_some_iff_getElem.1 hi).1
  have hfreed : (env.slots.setIfInBounds i ⟨none, nan⟩)[j]?.bind Slot.name
      = if j = i then none else env.nameAt? j := by
    simp only [Array.getElem?_setIfInBounds, hin, if_true, eq_comm]
    split <;> rfl
  -- A dropped slot had no name, so it counts as free before and after.
  rw [← hfreed, happend, nameAt?, Array.getElem?_append]
  split
  · rfl
  · rename_i hj
    rw [Array.getElem?_eq_none (by omega)]
    cases hslot : dropped[j - after.slots.size]? with
    | none => rfl
    | some slot => exact (hdropped slot (Array.mem_of_getElem? hslot)).symm

theorem slots_delete? {j : Nat} (hj : after.nameAt? j ≠ none) :
    after.slots[j]? = env.slots[j]? := by
  obtain ⟨dropped, happend, -⟩ := exists_slots_delete? hi h
  obtain ⟨other, hother⟩ := Option.ne_none_iff_exists'.1 hj
  have hsize : j < after.slots.size := lt_capacity_of_nameAt? hother
  have hne : i ≠ j := by
    rintro rfl
    rw [nameAt?_delete? hi h, if_pos rfl] at hj
    exact hj rfl
  have happended : (after.slots ++ dropped)[j]? = after.slots[j]? :=
    Array.getElem?_append_left hsize
  rw [← happended, ← happend, Array.getElem?_setIfInBounds_ne hne]

end

/-! Tidiness is kept -/

theorem tidy_of_nameAt? {env after : Environment} (tidy : env.Tidy)
    (hentries : after.entries = env.entries)
    (hnames : ∀ {i j : Nat} {name : String}, after.nameAt? i = some name →
      after.nameAt? j = some name → i = j)
    (hlast : ∀ slot, after.slots.back? = some slot → slot.name ≠ none) : after.Tidy where
  holds_inj hi hj := hnames (holds_iff.1 hi) (holds_iff.1 hj)
  last_named := hlast
  binds_inj hi hj := by
    simp only [Binds, hentries] at hi hj
    exact tidy.binds_inj hi hj

theorem last_named_iff {env : Environment} :
    (∀ slot, env.slots.back? = some slot → slot.name ≠ none) ↔
      (env.capacity ≠ 0 → env.nameAt? (env.capacity - 1) ≠ none) := by
  simp only [nameAt?, capacity, Array.back?_eq_getElem?]
  cases h : env.slots[env.slots.size - 1]? with
  | none =>
    have hsize : env.slots.size = 0 := by
      have := Array.getElem?_eq_none_iff.1 h
      omega
    simp [hsize]
  | some slot =>
    have hsize : env.slots.size ≠ 0 := by
      have := (Array.getElem?_eq_some_iff.1 h).1
      omega
    simp [hsize]

theorem tidy_allocate {env : Environment} (tidy : env.Tidy) {name : String}
    (h : ∀ i, env.nameAt? i ≠ some name) : (env.allocate name).2.Tidy := by
  refine tidy_of_nameAt? tidy (entries_allocate name) (fun {i j other} hi hj => ?_) ?_
  · rw [nameAt?_allocate] at hi hj
    split at hi
    · rename_i hfresh
      cases hi
      split at hj
      · rename_i hfresh'
        rw [hfresh, hfresh']
      · exact absurd hj (h j)
    · split at hj
      · cases hj
        exact absurd hi (h i)
      · exact tidy.nameAt?_inj hi hj
  · rw [last_named_iff, nameAt?_allocate, capacity_allocate]
    intro _
    split
    · exact Option.some_ne_none name
    · rename_i hne
      have hsize : max env.capacity (env.freshIndex + 1) = env.capacity := by omega
      rw [hsize]
      exact last_named_iff.1 tidy.last_named (by omega)

theorem tidy_delete? {env after : Environment} {name : String} (tidy : env.Tidy)
    (h : env.delete? name = some after) : after.Tidy := by
  obtain ⟨i, hi, hafter⟩ := Option.map_eq_some_iff.1 h
  obtain ⟨-, -, -, hlast⟩ := exists_slots_delete? hi h
  refine tidy_of_nameAt? tidy (by rw [← hafter]) (fun {j k other} hj hk => ?_) hlast
  rw [nameAt?_delete? hi h] at hj hk
  split at hj
  · cases hj
  · split at hk
    · cases hk
    · exact tidy.nameAt?_inj hj hk

/-! Names and addresses -/

section

variable {env : Environment}

theorem lookup?_eq_some_iff (tidy : env.Tidy) (small : env.capacity ≤ UInt32.size) {name : String}
    {a : Address} : env.lookup? name = some a ↔ env.nameAt? a.index.toNat = some name := by
  rw [lookup?, Option.map_eq_some_iff, ← holds_iff, ← tidy.slotOf?_eq_some_iff]
  constructor
  · rintro ⟨i, hi, rfl⟩
    have hlt : i < env.capacity :=
      lt_capacity_of_nameAt? (holds_iff.1 (tidy.slotOf?_eq_some_iff.1 hi))
    have hnumber : (UInt32.ofNat i).toNat = i := UInt32.toNat_ofNat_of_lt (by omega)
    exact hnumber.symm ▸ hi
  · exact fun h => ⟨_, h, by rw [UInt32.ofNat_toNat]⟩

theorem get_eq_of_slots {after : Environment} {name : String} {a : Address}
    (h : env.lookup? name = some a) (hafter : after.lookup? name = some a)
    (hslots : after.slots[a.index.toNat]? = env.slots[a.index.toNat]?) :
    after.get name = env.get name := by
  simp only [get, h, hafter, value, hslots]

theorem get_of_lookup?_eq_none {name : String} (h : env.lookup? name = none) :
    env.get name = nan := by
  rw [get, h]

def IsFree (env : Environment) (i : Nat) : Prop :=
  ∀ name a, env.lookup? name = some a → a.index.toNat ≠ i

def SameVariable (env after : Environment) (name : String) : Prop :=
  after.lookup? name = env.lookup? name ∧ after.get name = env.get name

/-- Resolution of a name; an explicit one gives no address to an unknown name. -/
def resolveAs (env : Environment) (explicit : Bool) (name : String) : Address × Environment :=
  if explicit then (env.lookup name, env) else env.resolve name

theorem capacity_resolveAs (env : Environment) (explicit : Bool) (name : String) :
    (env.resolveAs explicit name).2.capacity ≤ env.capacity + 1 := by
  have hallocate : (env.allocate name).2.capacity ≤ env.capacity + 1 := by
    rw [capacity_allocate]
    exact Nat.max_le.2 ⟨Nat.le_succ _, Nat.succ_le_succ freshIndex_le⟩
  unfold resolveAs resolve
  split
  · exact Nat.le_succ _
  · split
    · exact Nat.le_succ _
    · exact hallocate

theorem capacity_delete?_le {env after : Environment} {name : String}
    (h : env.delete? name = some after) : after.capacity ≤ env.capacity := by
  obtain ⟨i, hi, -⟩ := Option.map_eq_some_iff.1 h
  obtain ⟨dropped, happend, -⟩ := exists_slots_delete? hi h
  have hsize := congrArg Array.size happend
  rw [Array.size_setIfInBounds, Array.size_append] at hsize
  rw [capacity, capacity, hsize]
  exact Nat.le_add_right _ _

section

variable (tidy : env.Tidy) (small : env.capacity < UInt32.size)
include tidy small

theorem isFree_iff {i : Nat} (hi : i < UInt32.size) : env.IsFree i ↔ env.nameAt? i = none := by
  have hnumber : (UInt32.ofNat i).toNat = i := UInt32.toNat_ofNat_of_lt hi
  constructor
  · intro h
    rw [Option.eq_none_iff_forall_ne_some]
    intro name hname
    refine h name ⟨UInt32.ofNat i⟩ ?_ hnumber
    rw [lookup?_eq_some_iff tidy (Nat.le_of_lt small), hnumber]
    exact hname
  · rintro h name a ha rfl
    rw [lookup?_eq_some_iff tidy (Nat.le_of_lt small), h] at ha
    cases ha

theorem sameVariable_of_slots {after : Environment} {name : String} (tidy' : after.Tidy)
    (small' : after.capacity ≤ UInt32.size)
    (hnames : ∀ i, after.nameAt? i = some name ↔ env.nameAt? i = some name)
    (hslots : ∀ i, env.nameAt? i = some name → after.slots[i]? = env.slots[i]?) :
    env.SameVariable after name := by
  have hlookup : after.lookup? name = env.lookup? name := by
    apply Option.ext
    intro a
    rw [lookup?_eq_some_iff tidy' small', lookup?_eq_some_iff tidy (Nat.le_of_lt small), hnames]
  refine ⟨hlookup, ?_⟩
  cases h : env.lookup? name with
  | none => rw [get_of_lookup?_eq_none h, get_of_lookup?_eq_none (hlookup.trans h)]
  | some a =>
    refine get_eq_of_slots h (hlookup.trans h) (hslots _ ?_)
    exact (lookup?_eq_some_iff tidy (Nat.le_of_lt small)).1 h

theorem resolve_fresh {name : String} (h : env.lookup? name = none) :
    ∃ a after, env.resolveAs false name = (a, after) ∧
      env.IsFree a.index.toNat ∧ (∀ i, i < a.index.toNat → ¬ env.IsFree i) ∧
      after.lookup? name = some a ∧ after.get name = nan ∧
      ∀ other, other ≠ name → env.SameVariable after other := by
  have hunknown := lookup?_eq_none_iff.1 h
  have hfresh : env.freshIndex < UInt32.size := Nat.lt_of_le_of_lt freshIndex_le small
  have hnumber : (UInt32.ofNat env.freshIndex).toNat = env.freshIndex :=
    UInt32.toNat_ofNat_of_lt hfresh
  have tidy' := tidy_allocate tidy hunknown
  have small' : (env.allocate name).2.capacity ≤ UInt32.size := by
    rw [capacity_allocate]
    omega
  have hlookup : (env.allocate name).2.lookup? name = some ⟨UInt32.ofNat env.freshIndex⟩ := by
    rw [lookup?_eq_some_iff tidy' small', hnumber, nameAt?_allocate, if_pos rfl]
  refine ⟨⟨UInt32.ofNat env.freshIndex⟩, (env.allocate name).2, ?_, ?_, ?_, hlookup, ?_, ?_⟩
  · rw [resolveAs, if_neg Bool.false_ne_true, resolve, h, ← allocate_fst name]
  · rw [hnumber, isFree_iff tidy small hfresh]
    exact nameAt?_freshIndex
  · intro i hi
    rw [hnumber] at hi
    rw [isFree_iff tidy small (by omega)]
    exact nameAt?_ne_none_of_lt hi
  · rw [get, hlookup]
    simp only [value, hnumber, slots_allocate, if_true]
  · intro other hother
    have hkept : ∀ i, env.nameAt? i = some other → i ≠ env.freshIndex := by
      rintro i hi rfl
      rw [nameAt?_freshIndex] at hi
      cases hi
    refine sameVariable_of_slots tidy small tidy' small' (fun i => ?_) fun i hi => ?_
    · rw [nameAt?_allocate]
      split
      · rename_i heq
        subst heq
        rw [nameAt?_freshIndex, Option.some.injEq]
        exact iff_of_false (Ne.symm hother) (Option.some_ne_none other).symm
      · rfl
    · rw [slots_allocate, if_neg (hkept i hi)]

theorem delete_known {name : String} (h : env.lookup? name ≠ none) :
    ∃ after, env.delete? name = some after ∧ after.lookup? name = none ∧
      ∀ other, other ≠ name → env.SameVariable after other := by
  obtain ⟨i, hi⟩ : ∃ i, env.slotOf? name = some i := by
    rwa [lookup?, Ne, Option.map_eq_none_iff, ← Ne, Option.ne_none_iff_exists'] at h
  have hname : env.nameAt? i = some name := holds_iff.1 (tidy.slotOf?_eq_some_iff.1 hi)
  obtain ⟨after, hafter⟩ : ∃ after, env.delete? name = some after := by
    rw [delete?, hi]
    exact ⟨_, rfl⟩
  have hnames := nameAt?_delete? hi hafter
  have tidy' := tidy_delete? tidy hafter
  have small' : after.capacity ≤ UInt32.size :=
    Nat.le_trans (capacity_delete?_le hafter) (Nat.le_of_lt small)
  refine ⟨after, hafter, ?_, fun other hother => ?_⟩
  · rw [lookup?_eq_none_iff]
    intro j hj
    rw [hnames] at hj
    split at hj
    · cases hj
    · rename_i hne
      exact hne (tidy.nameAt?_inj hj hname)
  · have hkept : ∀ j, after.nameAt? j = some other ↔ env.nameAt? j = some other := by
      intro j
      rw [hnames]
      split
      · rename_i heq
        rw [heq, hname, Option.some.injEq]
        exact iff_of_false (Option.some_ne_none other).symm (Ne.symm hother)
      · rfl
    refine sameVariable_of_slots tidy small tidy' small' hkept fun j hj => ?_
    exact slots_delete? hi hafter (by rw [(hkept j).2 hj]; exact Option.some_ne_none other)

end

end

end Environment

end PrefixCalculus
