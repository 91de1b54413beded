import PrefixCalculus.Proofs.Allocation
import PrefixCalculus.Proofs.StoredFunctions
set_option autoImplicit false

/-!
A store in step behaves as the environment that it holds. Each operation is compared with the one on
environments: it finds every slot that it reaches for, its outcome is in step again and holds what
the environment becomes. Main statements: `refines_resolve`, `refines_set`, `refines_delete`.
-/

namespace PrefixCalculus

theorem eq_ofNat_iff {a : Address} {i : Nat} (hi : i < UInt32.size) :
    a = ⟨UInt32.ofNat i⟩ ↔ a.index.toNat = i := by
  constructor
  · rintro rfl
    exact UInt32.toNat_ofNat_of_lt hi
  · rintro rfl
    rw [UInt32.ofNat_toNat]

namespace Store

section

variable {s after : Store} {name : String}

theorem slots_eq_some_iff {i : Nat} {slot : Slot} :
    s.slots[i]? = some slot ↔ s.labels[i]? = some slot.name ∧ s.values[i]? = some slot.value := by
  rw [slots, Array.getElem?_zipWith_eq_some]
  constructor
  · rintro ⟨label, value, hlabel, hvalue, rfl⟩
    exact ⟨hlabel, hvalue⟩
  · rintro ⟨hlabel, hvalue⟩
    exact ⟨_, _, hlabel, hvalue, rfl⟩

theorem size_slots (h : s.labels.size = s.values.size) : s.slots.size = s.values.size := by
  rw [slots, Array.size_zipWith, h, Nat.min_self]

theorem nameAt?_environment (h : s.labels.size = s.values.size) (i : Nat) :
    s.environment.nameAt? i = s.labels[i]?.join := by
  apply Option.ext
  intro name
  simp only [Environment.nameAt?, environment, Option.bind_eq_some_iff, slots_eq_some_iff,
    Option.join_eq_some_iff]
  constructor
  · rintro ⟨slot, ⟨hlabel, -⟩, hname⟩
    rw [hlabel, hname]
  · intro hlabel
    obtain ⟨hi, -⟩ := Array.getElem?_eq_some_iff.1 hlabel
    exact ⟨⟨some name, s.values[i]⟩, ⟨hlabel, Array.getElem?_eq_getElem (h ▸ hi)⟩, rfl⟩

theorem last_named_iff :
    s.labels.back? ≠ some none ↔ ∀ i, s.labels[i]? = some none → i + 1 < s.labels.size := by
  rw [Array.back?_eq_getElem?]
  constructor
  · intro h i hi
    obtain ⟨hlt, -⟩ := Array.getElem?_eq_some_iff.1 hi
    refine Nat.lt_of_le_of_ne hlt fun heq => h ?_
    rw [← heq, Nat.succ_sub_one, hi]
  · intro h hlast
    have := h _ hlast
    have := (Array.getElem?_eq_some_iff.1 hlast).1
    omega

end

section

variable {s : Store} {name : String} (c : s.Consistent)
include c

theorem lookup?_eq_some_iff {a : Address} :
    s.lookup? name = some a ↔ s.environment.nameAt? a.index.toNat = some name := by
  rw [c.lookup?_iff, nameAt?_environment c.size_labels]
  rfl

theorem tidy_environment (small : s.capacity ≤ UInt32.size) : s.environment.Tidy where
  holds_inj {i j other} hi hj := by
    have haddress : ∀ {k : Nat}, s.environment.Holds k other →
        s.lookup? other = some ⟨UInt32.ofNat k⟩ ∧ k < UInt32.size := by
      intro k hk
      rw [Environment.holds_iff] at hk
      have hlt : k < s.environment.capacity := Environment.lt_capacity_of_nameAt? hk
      rw [Environment.capacity, environment, size_slots c.size_labels] at hlt
      have hlt : k < UInt32.size := Nat.lt_of_lt_of_le hlt small
      refine ⟨?_, hlt⟩
      rw [lookup?_eq_some_iff c, (eq_ofNat_iff hlt).1 rfl, hk]
    obtain ⟨hi, hi'⟩ := haddress hi
    obtain ⟨hj, hj'⟩ := haddress hj
    rw [hi, Option.some.injEq, eq_ofNat_iff hj', (eq_ofNat_iff hi').1 rfl] at hj
    exact hj
  last_named := by
    rw [Environment.last_named_iff, nameAt?_environment c.size_labels]
    intro hsize hnone
    rw [Environment.capacity, environment, size_slots c.size_labels, ← c.size_labels] at hsize hnone
    refine c.last_named ?_
    rw [Array.back?_eq_getElem?, Array.getElem?_eq_getElem (by omega)]
    rw [Array.getElem?_eq_getElem (by omega), Option.join_some] at hnone
    rw [hnone]
  binds_inj hi hj := by
    obtain ⟨f, hf, rfl⟩ := (binds_iff c.toRegistered).1 hi
    obtain ⟨g, hg, rfl⟩ := (binds_iff c.toRegistered).1 hj
    rw [hf, Option.some.injEq] at hg
    rw [hg]

theorem lookup?_environment (small : s.capacity ≤ UInt32.size) :
    s.environment.lookup? name = s.lookup? name := by
  apply Option.ext
  intro a
  rw [lookup?_eq_some_iff c, Environment.lookup?_eq_some_iff (tidy_environment c small)]
  rwa [Environment.capacity, environment, size_slots c.size_labels]

end

/-! Reading -/

section

variable {s : Store}

theorem nameOf?_environment (h : s.labels.size = s.values.size) (a : Address) :
    s.environment.nameOf? a = s.nameOf? a :=
  nameAt?_environment h a.index.toNat

theorem capacity_environment (h : s.labels.size = s.values.size) :
    s.environment.capacity = s.capacity :=
  size_slots h

theorem value_environment (h : s.labels.size = s.values.size) (a : Address) :
    s.environment.value a = s.value a := by
  rw [Environment.value, value]
  cases hslot : s.environment.slots[a.index.toNat]? with
  | some slot => rw [(slots_eq_some_iff.1 hslot).2, Option.getD_some]
  | none =>
    rw [Array.getElem?_eq_none_iff] at hslot
    rw [Array.getElem?_eq_none (by rwa [environment, size_slots h] at hslot), Option.getD_none]

end

/-! A name in a free slot -/

structure Places (s after : Store) (name : String) (k : Nat) : Prop where
  size_labels : after.labels.size = after.values.size
  labels : ∀ i, after.labels[i]? = if i = k then some (some name) else s.labels[i]?
  values : ∀ i, after.values[i]? = if i = k then some nan else s.values[i]?
  names : after.names = s.names.insert name ⟨UInt32.ofNat k⟩
  mem_free_iff : ∀ {i : UInt32}, i ∈ after.free ↔ i.toNat ≠ k ∧ i ∈ s.free
  functions : after.functions = s.functions
  functionNames : after.functionNames = s.functionNames

namespace Places

variable {s after : Store} {name : String} {k : Nat} (p : s.Places after name k)
include p

theorem consistent (c : s.Consistent) (hk : s.labels[k]?.join = none) (small : k < UInt32.size)
    (hnew : s.lookup? name = none) : after.Consistent where
  size_labels := p.size_labels
  lookup?_iff {other a} := by
    have hnew : ∀ b, s.nameOf? b ≠ some name := by
      intro b hb
      rw [← c.lookup?_iff, hnew] at hb
      cases hb
    rw [lookup?, p.names, Std.TreeMap.getElem?_insert, nameOf?, p.labels]
    by_cases ha : a.index.toNat = k
    · rw [if_pos ha, Option.join_some, Option.some.injEq]
      by_cases hother : name = other
      · rw [if_pos (Std.LawfulEqOrd.compare_eq_iff_eq.2 hother), Option.some.injEq, eq_comm,
          eq_ofNat_iff small]
        exact iff_of_true ha hother
      · rw [if_neg (by rwa [Std.LawfulEqOrd.compare_eq_iff_eq]), ← lookup?, c.lookup?_iff, nameOf?,
          ha, hk]
        exact iff_of_false (Option.some_ne_none other).symm hother
    · rw [if_neg ha, ← nameOf?, ← c.lookup?_iff]
      by_cases hother : name = other
      · rw [if_pos (Std.LawfulEqOrd.compare_eq_iff_eq.2 hother), Option.some.injEq, eq_comm,
          eq_ofNat_iff small, ← hother, c.lookup?_iff]
        exact iff_of_false ha (hnew a)
      · rw [if_neg (by rwa [Std.LawfulEqOrd.compare_eq_iff_eq]), ← lookup?]
  mem_free_iff {i} := by
    rw [p.mem_free_iff, c.mem_free_iff, p.labels]
    split
    · rename_i hi
      simp [hi]
    · rename_i hi
      simp [hi]
  last_named := by
    rw [last_named_iff]
    intro i hi
    rw [p.labels] at hi
    split at hi
    · simp at hi
    · have hlt := last_named_iff.1 c.last_named i hi
      have hnext := p.labels (i + 1)
      rw [Array.getElem?_eq_getElem hlt] at hnext
      refine Nat.lt_of_not_le fun hle => ?_
      rw [Array.getElem?_eq_none hle] at hnext
      split at hnext <;> cases hnext
  stored h := by
    rw [functionId?, p.functionNames] at h
    rw [function?, p.functions]
    exact c.stored h

theorem environment_eq (hk : k = s.environment.freshIndex) :
    after.environment = (s.environment.allocate name).2 := by
  have hentries : after.environment.entries = (s.environment.allocate name).2.entries := by
    rw [Environment.entries_allocate, environment, environment, entries, entries, p.functions,
      p.functionNames]
  have hslots : after.environment.slots = (s.environment.allocate name).2.slots := by
    apply Array.ext_getElem?
    intro i
    rw [Environment.slots_allocate, ← hk]
    apply Option.ext
    intro slot
    rw [environment, slots_eq_some_iff, p.labels, p.values]
    split
    · simp only [Option.some.injEq]
      constructor
      · rintro ⟨hname, hvalue⟩
        rw [hname, hvalue]
      · rintro rfl
        exact ⟨rfl, rfl⟩
    · rw [environment, slots_eq_some_iff]
  exact congrArg₂ Environment.mk hslots hentries

end Places

theorem freshIndex_eq {env : Environment} {k : Nat} (hk : env.nameAt? k = none)
    (hlt : ∀ i, i < k → env.nameAt? i ≠ none) : env.freshIndex = k := by
  rcases Nat.lt_trichotomy env.freshIndex k with h | h | h
  · exact absurd Environment.nameAt?_freshIndex (hlt _ h)
  · exact h
  · exact absurd hk (Environment.nameAt?_ne_none_of_lt h)

section

variable {s : Store} {name : String} (c : s.Consistent) (small : s.capacity < UInt32.size)
include c

theorem mem_free_of_join {i : Nat} (hi : i < s.capacity) (hnumber : (UInt32.ofNat i).toNat = i)
    (hnone : s.labels[i]?.join = none) : UInt32.ofNat i ∈ s.free := by
  have hi : i < s.labels.size := c.size_labels ▸ hi
  rw [c.mem_free_iff, hnumber, Array.getElem?_eq_getElem hi]
  rw [Array.getElem?_eq_getElem hi, Option.join_some] at hnone
  rw [hnone]

include small

theorem exists_places_reused {slot : UInt32} (hmin : s.firstFree? = some slot) :
    s.environment.freshIndex = slot.toNat ∧ ∃ after,
      s.allocate name = some (⟨slot⟩, after) ∧ s.Places after name slot.toNat := by
  obtain ⟨hslot, hleast⟩ := firstFree?_eq_some_iff.1 hmin
  rw [c.mem_free_iff] at hslot
  have hlabels : slot.toNat < s.labels.size := (Array.getElem?_eq_some_iff.1 hslot).1
  have hvalues : slot.toNat < s.values.size := c.size_labels ▸ hlabels
  constructor
  · refine freshIndex_eq ?_ fun i hi => ?_
    · rw [nameAt?_environment c.size_labels, hslot, Option.join_some]
    · rw [nameAt?_environment c.size_labels]
      intro hnone
      have hlt := Nat.lt_trans hi hvalues
      have hnumber : (UInt32.ofNat i).toNat = i :=
        UInt32.toNat_ofNat_of_lt (Nat.lt_trans hlt small)
      have hle := hleast _ (mem_free_of_join c hlt hnumber hnone)
      rw [UInt32.le_iff_toNat_le, hnumber] at hle
      omega
  · refine ⟨?after, ?outcome, ?places⟩
    case outcome =>
      rw [allocate, hmin]
      simp only [overwrite?_of_lt hvalues, overwrite?_of_lt hlabels, bind, Option.bind]
      rfl
    case places =>
      refine ⟨?_, fun i => ?_, fun i => ?_, ?_, fun {i} => ?_, rfl, rfl⟩
      · rw [Array.size_setIfInBounds, Array.size_setIfInBounds, c.size_labels]
      · simp only [Array.getElem?_setIfInBounds, hlabels, if_true, eq_comm]
      · simp only [Array.getElem?_setIfInBounds, hvalues, if_true, eq_comm]
      · rw [UInt32.ofNat_toNat]
      · rw [Std.TreeSet.mem_erase, ne_eq, Std.LawfulEqOrd.compare_eq_iff_eq, ← UInt32.toNat_inj,
          eq_comm]

theorem exists_places_appended (hmin : s.firstFree? = none) :
    s.environment.freshIndex = s.values.size ∧ ∃ after,
      s.allocate name = some (⟨UInt32.ofNat s.values.size⟩, after) ∧
        s.Places after name s.values.size := by
  have hempty := firstFree?_eq_none_iff.1 hmin
  constructor
  · refine freshIndex_eq ?_ fun i hi => ?_
    · rw [nameAt?_environment c.size_labels, ← c.size_labels,
        Array.getElem?_eq_none (Nat.le_refl _), Option.join_none]
    · rw [nameAt?_environment c.size_labels]
      intro hnone
      have hnumber : (UInt32.ofNat i).toNat = i :=
        UInt32.toNat_ofNat_of_lt (Nat.lt_trans hi small)
      exact hempty _ (mem_free_of_join c hi hnumber hnone)
  · refine ⟨?after, ?outcome, ?places⟩
    case outcome =>
      rw [allocate, hmin]
      simp only [Array.size_push, Nat.add_sub_cancel]
      rfl
    case places =>
      refine ⟨?_, fun i => ?_, fun i => ?_, rfl, fun {i} => ?_, rfl, rfl⟩
      · rw [Array.size_push, Array.size_push, c.size_labels]
      · rw [Array.getElem?_push, c.size_labels]
      · rw [Array.getElem?_push]
      · exact iff_of_false (hempty i) fun h => hempty i h.2

theorem refines_allocate (hnew : s.lookup? name = none) :
    Refines Consistent (s.allocate name) (s.environment.allocate name) := by
  obtain ⟨k, hk, after, houtcome, hplaces⟩ : ∃ k, s.environment.freshIndex = k ∧ ∃ after,
      s.allocate name = some (⟨UInt32.ofNat k⟩, after) ∧ s.Places after name k := by
    cases hmin : s.firstFree? with
    | some slot =>
      obtain ⟨hk, after, houtcome, hplaces⟩ := exists_places_reused c small hmin
      exact ⟨slot.toNat, hk, after, by rwa [UInt32.ofNat_toNat], hplaces⟩
    | none => exact ⟨s.values.size, exists_places_appended c small hmin⟩
  refine ⟨after, ?_, ?_, hplaces.environment_eq hk.symm⟩
  · rw [houtcome, Environment.allocate_fst, hk]
  · have hle : k ≤ s.capacity := by
      rw [← hk, ← capacity_environment c.size_labels]
      exact Environment.freshIndex_le
    refine hplaces.consistent c ?_ (Nat.lt_of_le_of_lt hle small) hnew
    rw [← nameAt?_environment c.size_labels, ← hk]
    exact Environment.nameAt?_freshIndex

theorem refines_resolve (explicit : Bool) (name : String) :
    Refines Consistent (s.resolve explicit name) (s.environment.resolveAs explicit name) := by
  have hlookup : s.environment.lookup? name = s.lookup? name :=
    lookup?_environment c (Nat.le_of_lt small)
  rw [Environment.resolveAs, Environment.lookup, Environment.resolve, resolve, hlookup]
  cases h : s.lookup? name with
  | some a =>
    refine ⟨s, ?_, c, ?_⟩ <;> cases explicit <;> rfl
  | none =>
    cases explicit with
    | true => exact ⟨s, rfl, c, rfl⟩
    | false => exact refines_allocate c small h

end

theorem consistent_setValue {s : Store} (c : s.Consistent) (a : Address) (v : Float) :
    (s.setValue a v).Consistent where
  size_labels := by rw [setValue, Array.size_setIfInBounds, c.size_labels]
  lookup?_iff := c.lookup?_iff
  mem_free_iff := c.mem_free_iff
  last_named := c.last_named
  stored := c.stored

theorem environment_setValue (s : Store) (a : Address) (v : Float) :
    (s.setValue a v).environment = s.environment.setValue a v := by
  have hslots : (s.setValue a v).slots = (s.environment.setValue a v).slots := by
    apply Array.ext_getElem?
    intro i
    rw [Environment.slots_setValue, slots, environment, slots, setValue]
    simp only [Array.getElem?_zipWith, Array.getElem?_setIfInBounds]
    by_cases heq : a.index.toNat = i
    · subst heq
      rw [if_pos rfl, if_pos rfl]
      by_cases hlt : a.index.toNat < s.values.size
      · rw [if_pos hlt, Array.getElem?_eq_getElem hlt]
        cases s.labels[a.index.toNat]? <;> rfl
      · rw [if_neg hlt, Array.getElem?_eq_none (Nat.le_of_not_lt hlt)]
        cases s.labels[a.index.toNat]? <;> rfl
    · rw [if_neg heq, if_neg heq]
  exact congrArg (Environment.mk · s.entries) hslots

theorem refines_set {s : Store} (c : s.Consistent) (small : s.capacity < UInt32.size)
    (name : String) (v : Float) : Refines Consistent (s.set name v) (s.environment.set name v) := by
  obtain ⟨after, houtcome, hafter, hholds⟩ := refines_resolve c small false name
  refine ⟨after.setValue (s.environment.resolveAs false name).1 v, ?_, consistent_setValue hafter _ v,
    ?_⟩
  · rw [set, houtcome]
    rfl
  · rw [environment_setValue, hholds]
    rfl

/-! A name that is deleted -/

theorem popWhile_eq_self {α : Type} {p : α → Bool} {xs : Array α}
    (h : ∀ x, xs.back? = some x → p x = false) : xs.popWhile p = xs := by
  rw [Array.popWhile]
  split
  · rename_i hsize
    rw [if_neg]
    rw [Bool.not_eq_true]
    exact h _ (by rw [Array.back?_eq_getElem?, Array.getElem?_eq_getElem])
  · rfl

theorem popWhile_eq_pop {α : Type} {p : α → Bool} {xs : Array α} {x : α}
    (hx : xs.back? = some x) (h : p x = true) : xs.popWhile p = xs.pop.popWhile p := by
  have hsize : 0 < xs.size := by
    rw [Array.back?_eq_getElem?] at hx
    have := (Array.getElem?_eq_some_iff.1 hx).1
    omega
  rw [Array.back?_eq_getElem?, Array.getElem?_eq_getElem (by omega), Option.some.injEq] at hx
  rw [Array.popWhile, dif_pos hsize, if_pos (by rwa [hx])]

theorem pop_setIfInBounds {α : Type} {xs : Array α} {i : Nat} (x : α) (hi : i + 1 = xs.size) :
    (xs.setIfInBounds i x).pop = xs.pop := by
  apply Array.ext_getElem?
  intro j
  rw [Array.getElem?_pop, Array.getElem?_pop, Array.size_setIfInBounds]
  split
  · rw [Array.getElem?_setIfInBounds_ne (by omega)]
  · rfl

/-- Values and labels are in step and the free slots are known, but the last ones may be free. -/
structure InStep (s : Store) : Prop where
  size_labels : s.labels.size = s.values.size
  mem_free_iff : ∀ {i : UInt32}, i ∈ s.free ↔ s.labels[i.toNat]? = some none

namespace InStep

variable {s : Store} (h : s.InStep)
include h

theorem back?_slots {slot : Slot} (hslot : s.slots.back? = some slot) :
    s.labels.back? = some slot.name := by
  rw [Array.back?_eq_getElem?, size_slots h.size_labels, slots_eq_some_iff] at hslot
  rw [Array.back?_eq_getElem?, h.size_labels]
  exact hslot.1

theorem popWhile_slots (hlast : s.labels.back? ≠ some none) :
    s.slots.popWhile (fun slot => slot.name.isNone) = s.slots := by
  refine popWhile_eq_self fun slot hslot => ?_
  have hname := h.back?_slots hslot
  cases hslot : slot.name with
  | none =>
    rw [hslot] at hname
    exact absurd hname hlast
  | some name => rfl

theorem last_named (small : s.capacity ≤ UInt32.size)
    (hmax : ∀ last, s.lastFree? = some last → last.toNat + 1 ≠ s.values.size) :
    s.labels.back? ≠ some none := by
  intro hback
  rw [Array.back?_eq_getElem?, h.size_labels] at hback
  have hlt := (Array.getElem?_eq_some_iff.1 hback).1
  rw [h.size_labels] at hlt
  have hnumber : (UInt32.ofNat (s.values.size - 1)).toNat = s.values.size - 1 :=
    UInt32.toNat_ofNat_of_lt (Nat.lt_of_lt_of_le hlt small)
  have hfree : UInt32.ofNat (s.values.size - 1) ∈ s.free := by
    rw [h.mem_free_iff, hnumber, hback]
  cases hfound : s.lastFree? with
  | none =>
    exact lastFree?_eq_none_iff.1 hfound _ hfree
  | some last =>
    obtain ⟨hlast, hgreatest⟩ := lastFree?_eq_some_iff.1 hfound
    have hle := hgreatest _ hfree
    rw [UInt32.le_iff_toNat_le, hnumber] at hle
    have hin := (Array.getElem?_eq_some_iff.1 (h.mem_free_iff.1 hlast)).1
    rw [h.size_labels] at hin
    exact hmax last hfound (by omega)

end InStep

theorem slots_pop {s : Store} (h : s.labels.size = s.values.size) :
    s.slots.pop = s.labels.pop.zipWith Slot.mk s.values.pop := by
  apply Array.ext_getElem?
  intro i
  rw [Array.getElem?_pop, size_slots h, slots, Array.getElem?_zipWith, Array.getElem?_zipWith,
    Array.getElem?_pop, Array.getElem?_pop, h]
  split <;> rfl

structure Shrinks (s after : Store) : Prop where
  inStep : after.InStep
  last_named : after.labels.back? ≠ some none
  slots : after.slots = s.slots.popWhile fun slot => slot.name.isNone
  nameAt? : ∀ i : Nat, after.labels[i]?.join = s.labels[i]?.join
  names : after.names = s.names
  functions : after.functions = s.functions
  functionNames : after.functionNames = s.functionNames

theorem shrinks (s : Store) (h : s.InStep) (small : s.capacity ≤ UInt32.size) :
    s.Shrinks s.shrink := by
  -- every turn drops a slot without a name; where the turns end the last slot has one
  fun_induction shrink s with
  | case1 s last hmax hlast ih =>
    have hfree : s.labels[last.toNat]? = some none :=
      h.mem_free_iff.1 (lastFree?_eq_some_iff.1 hmax).1
    have hlabels := h.size_labels
    have hpopped : InStep { s with
        free := s.free.erase last, values := s.values.pop, labels := s.labels.pop } := by
      refine ⟨by rw [Array.size_pop, Array.size_pop, hlabels], fun {i} => ?_⟩
      rw [Std.TreeSet.mem_erase, ne_eq, Std.LawfulEqOrd.compare_eq_iff_eq, h.mem_free_iff,
        ← UInt32.toNat_inj, Array.getElem?_pop]
      split
      · exact and_iff_right (by omega)
      · refine iff_of_false ?_ (Option.some_ne_none _).symm
        rintro ⟨hne, hi⟩
        have := (Array.getElem?_eq_some_iff.1 hi).1
        omega
    obtain ⟨hstep, hnamed, hslots, hlabelled, hnames, hfunctions, hids⟩ :=
      ih hpopped (Nat.le_trans (by simp [capacity]) small)
    refine ⟨hstep, hnamed, ?_, fun i => ?_, hnames, hfunctions, hids⟩
    · obtain ⟨value, hvalue⟩ : ∃ value, s.values[last.toNat]? = some value :=
        ⟨_, Array.getElem?_eq_getElem (by omega)⟩
      have hback : s.slots.back? = some ⟨none, value⟩ := by
        rw [Array.back?_eq_getElem?, size_slots hlabels, ← hlast, Nat.add_sub_cancel,
          slots_eq_some_iff]
        exact ⟨hfree, hvalue⟩
      rw [hslots, popWhile_eq_pop hback rfl, slots, slots_pop hlabels]
    · rw [hlabelled, Array.getElem?_pop]
      split
      · rfl
      · by_cases hi : i = last.toNat
        · rw [hi, hfree, Option.join_some, Option.join_none]
        · rw [Array.getElem?_eq_none (by omega)]
  | case2 s last hmax hlast =>
    have hnamed := h.last_named small fun other hother => by
      rw [hmax, Option.some.injEq] at hother
      rwa [← hother]
    exact ⟨h, hnamed, (h.popWhile_slots hnamed).symm, fun i => rfl, rfl, rfl, rfl⟩
  | case3 s hmax =>
    have hnamed := h.last_named small fun last hlast => by
      rw [hmax] at hlast
      cases hlast
    exact ⟨h, hnamed, (h.popWhile_slots hnamed).symm, fun i => rfl, rfl, rfl, rfl⟩

/-- The name of the slot is gone. The slot itself may be gone too if it was the last one. -/
structure Frees (s after : Store) (name : String) (k : Nat) : Prop where
  inStep : after.InStep
  nameAt? : ∀ i : Nat, after.labels[i]?.join = if i = k then none else s.labels[i]?.join
  slots : after.slots.popWhile (fun slot => slot.name.isNone)
    = (s.slots.setIfInBounds k ⟨none, nan⟩).popWhile fun slot => slot.name.isNone
  names : after.names = s.names.erase name
  functions : after.functions = s.functions
  functionNames : after.functionNames = s.functionNames

section

variable {s mid after : Store} {name : String} {a : Address}

theorem Frees.consistent (f : s.Frees mid name a.index.toNat) (h : mid.Shrinks after)
    (c : s.Consistent) (ha : s.lookup? name = some a) : after.Consistent where
  size_labels := h.inStep.size_labels
  lookup?_iff {other b} := by
    have hname : s.nameOf? a = some name := c.lookup?_iff.1 ha
    rw [lookup?, h.names, f.names, Std.TreeMap.getElem?_erase, nameOf?, h.nameAt?, f.nameAt?]
    by_cases hother : name = other
    · subst hother
      rw [if_pos (Std.LawfulEqOrd.compare_eq_iff_eq.2 rfl)]
      refine iff_of_false (Option.some_ne_none b).symm ?_
      split
      · exact (Option.some_ne_none name).symm
      · rename_i hb
        intro hnameOf
        rw [← nameOf?, ← c.lookup?_iff, ha, Option.some.injEq] at hnameOf
        exact hb (by rw [hnameOf])
    · rw [if_neg (by rwa [Std.LawfulEqOrd.compare_eq_iff_eq]), ← lookup?, c.lookup?_iff]
      split
      · rename_i hb
        refine iff_of_false ?_ (Option.some_ne_none other).symm
        rw [nameOf?, hb, ← nameOf?, hname, Option.some.injEq]
        exact hother
      · rfl
  mem_free_iff := h.inStep.mem_free_iff
  last_named := h.last_named
  stored hf := by
    rw [functionId?, h.functionNames, f.functionNames] at hf
    rw [function?, h.functions, f.functions]
    exact c.stored hf

theorem Frees.refines (f : s.Frees mid name a.index.toNat) (h : mid.Shrinks after)
    (c : s.Consistent) (small : s.capacity ≤ UInt32.size) (ha : s.lookup? name = some a) :
    s.environment.delete? name = some after.environment := by
  have hslot : s.environment.slotOf? name = some a.index.toNat := by
    rw [(tidy_environment c small).slotOf?_eq_some_iff, Environment.holds_iff]
    exact (lookup?_eq_some_iff c).1 ha
  rw [Environment.delete?, hslot, Option.map_some, Option.some.injEq]
  have hslots : after.slots
      = (s.slots.setIfInBounds a.index.toNat ⟨none, nan⟩).popWhile fun slot => slot.name.isNone :=
    h.slots.trans f.slots
  have hentries : after.entries = s.entries := by
    rw [entries, entries, h.functions, h.functionNames, f.functions, f.functionNames]
  exact (congrArg₂ Environment.mk hslots hentries).symm

section

variable (c : s.Consistent) (hk : s.labels[a.index.toNat]? = some (some name))
include c hk

theorem frees_last (hlast : a.index.toNat + 1 = s.values.size) :
    s.Frees { s with
      names := s.names.erase name
      values := s.values.pop
      labels := (s.labels.setIfInBounds a.index.toNat none).pop } name a.index.toNat := by
  have hsize := c.size_labels
  -- the label that was cleared is dropped at once
  rw [pop_setIfInBounds none (hlast.trans hsize.symm)]
  refine ⟨⟨?_, fun {i} => ?_⟩, fun i => ?_, ?_, rfl, rfl, rfl⟩
  · rw [Array.size_pop, Array.size_pop, hsize]
  · rw [c.mem_free_iff, Array.getElem?_pop]
    split
    · rfl
    · refine iff_of_false (fun hi => ?_) (Option.some_ne_none _).symm
      have hlt := (Array.getElem?_eq_some_iff.1 hi).1
      have heq : i.toNat = a.index.toNat := by omega
      rw [heq, hk, Option.some.injEq] at hi
      exact Option.some_ne_none name hi
  · rw [Array.getElem?_pop]
    split
    · rw [if_neg (by omega)]
    · split
      · rfl
      · rw [Array.getElem?_eq_none (by omega)]
  · have hin : a.index.toNat < s.slots.size := by rw [size_slots hsize]; omega
    have hback : (s.slots.setIfInBounds a.index.toNat ⟨none, nan⟩).back? = some ⟨none, nan⟩ := by
      rw [Array.back?_eq_getElem?, Array.size_setIfInBounds, size_slots hsize, ← hlast,
        Nat.add_sub_cancel, Array.getElem?_setIfInBounds_self_of_lt hin]
    rw [popWhile_eq_pop hback rfl, pop_setIfInBounds _ (by rw [size_slots hsize, hlast]),
      slots_pop hsize, slots]

theorem frees_inner (hinner : a.index.toNat + 1 ≠ s.values.size) :
    let mid : Store := { s with
      names := s.names.erase name
      labels := s.labels.setIfInBounds a.index.toNat none
      values := s.values.setIfInBounds a.index.toNat nan
      free := s.free.insert a.index }
    s.Frees mid name a.index.toNat ∧ mid.Shrinks mid := by
  intro mid
  have hsize := c.size_labels
  have hlt : a.index.toNat < s.labels.size := (Array.getElem?_eq_some_iff.1 hk).1
  have hlt' : a.index.toNat < s.values.size := hsize ▸ hlt
  have hlabels (i : Nat) : mid.labels[i]? = if a.index.toNat = i then some none else s.labels[i]? := by
    rw [Array.getElem?_setIfInBounds, if_pos hlt]
  have hstep : mid.InStep := by
    refine ⟨by rw [Array.size_setIfInBounds, Array.size_setIfInBounds, hsize], fun {i} => ?_⟩
    rw [Std.TreeSet.mem_insert, Std.LawfulEqOrd.compare_eq_iff_eq, c.mem_free_iff, hlabels,
      ← UInt32.toNat_inj]
    split
    · rename_i heq
      exact iff_of_true (.inl heq) rfl
    · rename_i hne
      exact or_iff_right hne
  have hnamed : mid.labels.back? ≠ some none := by
    rw [Array.back?_eq_getElem?, hlabels, Array.size_setIfInBounds, if_neg (by omega),
      ← Array.back?_eq_getElem?]
    exact c.last_named
  refine ⟨⟨hstep, fun i => ?_, ?_, rfl, rfl, rfl⟩,
    ⟨hstep, hnamed, (hstep.popWhile_slots hnamed).symm, fun i => rfl, rfl, rfl, rfl⟩⟩
  · rw [hlabels]
    simp only [eq_comm]
    split <;> rfl
  · congr 1
    apply Array.ext_getElem?
    intro i
    rw [slots, Array.getElem?_zipWith, hlabels, Array.getElem?_setIfInBounds,
      Array.getElem?_setIfInBounds, size_slots hsize, slots, Array.getElem?_zipWith]
    simp only [if_pos hlt']
    by_cases hi : a.index.toNat = i
    · simp only [if_pos hi]
    · simp only [if_neg hi]

end

theorem exists_frees (c : s.Consistent) (small : s.capacity ≤ UInt32.size)
    (ha : s.lookup? name = some a) : ∃ mid after, s.delete name = some (true, after) ∧
      s.Frees mid name a.index.toNat ∧ mid.Shrinks after := by
  have hname := c.lookup?_iff.1 ha
  rw [nameOf?, Option.join_eq_some_iff] at hname
  have hlabels : a.index.toNat < s.labels.size := (Array.getElem?_eq_some_iff.1 hname).1
  have hvalues : a.index.toNat < s.values.size := c.size_labels ▸ hlabels
  rw [lookup?] at ha
  rw [delete, ha]
  simp only [overwrite?_of_lt hlabels, overwrite?_of_lt hvalues, bind, Option.bind]
  split
  · rename_i hlast
    have hfrees := frees_last c hname hlast
    refine ⟨_, _, rfl, hfrees, shrinks _ hfrees.inStep (Nat.le_trans ?_ small)⟩
    simp [capacity]
  · rename_i hinner
    obtain ⟨hfrees, hshrinks⟩ := frees_inner c hname hinner
    exact ⟨_, _, rfl, hfrees, hshrinks⟩

theorem refines_delete (c : s.Consistent) (small : s.capacity ≤ UInt32.size) (name : String) :
    Refines Consistent (s.delete name)
      (match s.environment.delete? name with
        | some after => (true, after)
        | none => (false, s.environment)) := by
  cases h : s.lookup? name with
  | none =>
    have hlookup : s.environment.lookup? name = s.lookup? name := lookup?_environment c small
    rw [h, Environment.lookup?, Option.map_eq_none_iff] at hlookup
    rw [Environment.delete?, hlookup, Option.map_none]
    rw [lookup?] at h
    exact ⟨s, by rw [delete, h], c, rfl⟩
  | some a =>
    obtain ⟨mid, after, houtcome, hfrees, hshrinks⟩ := exists_frees c small h
    rw [hfrees.refines hshrinks c small h]
    exact ⟨after, houtcome, hfrees.consistent hshrinks c h, rfl⟩

end

end Store

end PrefixCalculus
