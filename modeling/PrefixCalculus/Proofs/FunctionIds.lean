import PrefixCalculus.Proofs.DefinitionText
import PrefixCalculus.Proofs.Walking
set_option autoImplicit false

/-!
The identifiers of functions through any commands. A command updates one place at most: a place that
is not bound is never used again, and one that is bound keeps its name until that is removed. Main
statement: bound names have identifiers of their own that lead back to them and stay with them; the
identifier of a removed function is never bound again, and calls through it are NaN from then on.
-/

namespace PrefixCalculus

namespace Environment

/-- What may be done to the functions; anything may be done to the variables in between. -/
inductive FunctionCommand
  | define (name : String) (argc : UInt32) (body : Expression)
  | defineText (text : String)
  | remove (name : String)
  | setSlots (slots : Array Slot)
  deriving DecidableEq

def FunctionCommand.Defines : FunctionCommand → String → Prop
  | define name _ _, other => name = other
  | defineText text, other => ∃ h body, definitionOf text = .ok (h, body) ∧ h.name = other
  | remove _, _ | setSlots _, _ => False

def perform (env : Environment) : FunctionCommand → Environment
  | .define name argc body => (env.define name argc body).2
  | .defineText text => (env.defineText text).2
  | .remove name => (env.remove? name).getD env
  | .setSlots slots => { env with slots }

def performAll (env : Environment) (commands : List FunctionCommand) : Environment :=
  commands.foldl perform env

theorem performAll_append (env : Environment) (before more : List FunctionCommand) :
    env.performAll (before ++ more) = (env.performAll before).performAll more :=
  List.foldl_append

/-! One command -/

/-- What a command may do to the places: nothing, or update that of the name that it is about. Only a
removal gives up a place that is bound. -/
theorem perform_cases (env : Environment) (c : FunctionCommand) :
    (env.perform c).entries = env.entries ∨ ∃ entry, env.Updates (env.perform c) entry ∧
      (c = .remove entry.function.name ∨ c.Defines entry.function.name ∧
        (entry.bound = false → env.entryOf? entry.function.name = none)) := by
  cases c with
  | define name argc body =>
    exact .inr ⟨_, env.updates_define ⟨name, argc, body⟩, .inr ⟨rfl, fun h => Bool.noConfusion h⟩⟩
  | defineText text =>
    have hcases := env.defineText_cases text
    rw [perform]
    generalize env.defineText text = outcome at hcases ⊢
    cases hcases with
    | refused => exact .inl rfl
    | @failed h body _ definition sound fault =>
      have complete := complete_of_definition definition
      obtain ⟨entry, hupdates, hname, hnew, -⟩ := (env.updates_readBody h complete).putBack
      exact .inr ⟨entry, hupdates, .inr ⟨⟨h, body, definition, hname.symm⟩, hname ▸ hnew⟩⟩
    | @accepted h body definition sound faultless =>
      have hlater := (env.readBody h body).2.env.updates_define
        ⟨h.name, UInt32.ofNat h.params.length, (env.readBody h body).1⟩
      have complete := complete_of_definition definition
      exact .inr ⟨_, (env.updates_readBody h complete).trans rfl hlater rfl,
        .inr ⟨⟨h, body, definition, rfl⟩, fun h => Bool.noConfusion h⟩⟩
  | remove name =>
    rw [perform]
    cases h : env.remove? name with
    | none => exact .inl rfl
    | some after => exact .inr ⟨_, updates_remove? h, .inl rfl⟩
  | setSlots slots => exact .inl rfl

section

variable {env : Environment} {name : String} {i : Nat}

theorem functionCount_perform (env : Environment) (c : FunctionCommand) :
    env.functionCount ≤ (env.perform c).functionCount := by
  obtain h | ⟨entry, h, -⟩ := env.perform_cases c
  · exact Nat.le_of_eq (by rw [functionCount, functionCount, h])
  · exact h.functionCount_le

theorem perform_of_unbound {entry : Entry} (hi : env.entries[i]? = some entry)
    (hbound : entry.bound = false) (c : FunctionCommand) :
    (env.perform c).entries[i]? = some entry := by
  obtain h | ⟨updated, h, -⟩ := env.perform_cases c
  · rw [h, hi]
  · rw [h.entries_of_ne (ne_placeFor hi ?_), hi]
    rintro ⟨found, hfound, hfound', -⟩
    cases hi.symm.trans hfound
    exact Bool.noConfusion (hbound.symm.trans hfound')

theorem entryOf?_perform (hi : env.entryOf? name = some i) {c : FunctionCommand}
    (hc : c ≠ .remove name) : (env.perform c).entryOf? name = some i := by
  obtain h | ⟨entry, h, habout⟩ := env.perform_cases c
  · rw [entryOf?_of_entries h, hi]
  · by_cases hname : name = entry.function.name
    · subst hname
      have hbound : entry.bound = true := by
        obtain hremove | ⟨-, hnew⟩ := habout
        · exact absurd hremove hc
        · rw [← Bool.not_eq_false]
          intro hfalse
          exact Option.some_ne_none i (hi.symm.trans (hnew hfalse))
      rw [h.entryOf?_self hbound, placeFor_of_entryOf? hi]
    · rw [h.entryOf?_of_ne hname, hi]

theorem entries_perform (hi : env.entryOf? name = some i) {c : FunctionCommand}
    (hc : c ≠ .remove name) (hdefines : ¬ c.Defines name) :
    (env.perform c).entries[i]? = env.entries[i]? := by
  obtain h | ⟨entry, h, habout⟩ := env.perform_cases c
  · rw [h]
  · have hname : name ≠ entry.function.name := by
      rintro rfl
      obtain hremove | ⟨hdefine, -⟩ := habout
      · exact hc hremove
      · exact hdefines hdefine
    obtain ⟨found, hfound, -⟩ := id (binds_of_entryOf? hi)
    refine h.entries_of_ne (ne_placeFor hfound fun hbinds => ?_)
    exact hname ((binds_of_entryOf? hi).name_eq hbinds)

end

/-! Any commands -/

section

variable {name : String} {i : Nat} (commands : List FunctionCommand)

theorem functionCount_performAll : ∀ env : Environment,
    env.functionCount ≤ (env.performAll commands).functionCount := by
  induction commands with
  | nil => exact fun env => Nat.le_refl _
  | cons c commands ih => exact fun env => Nat.le_trans (env.functionCount_perform c) (ih _)

theorem performAll_of_unbound {entry : Entry} (hbound : entry.bound = false) :
    ∀ {env : Environment}, env.entries[i]? = some entry →
      (env.performAll commands).entries[i]? = some entry := by
  induction commands with
  | nil => exact fun hi => hi
  | cons c commands ih => exact fun hi => ih (perform_of_unbound hi hbound c)

theorem entryOf?_performAll (hkept : .remove name ∉ commands) : ∀ {env : Environment},
    env.entryOf? name = some i → (env.performAll commands).entryOf? name = some i := by
  induction commands with
  | nil => exact fun hi => hi
  | cons c commands ih =>
    rw [List.mem_cons, not_or] at hkept
    exact fun hi => ih hkept.2 (entryOf?_perform hi (Ne.symm hkept.1))

theorem entries_performAll (hkept : .remove name ∉ commands)
    (hdefines : ∀ c ∈ commands, ¬ c.Defines name) : ∀ {env : Environment},
    env.entryOf? name = some i → (env.performAll commands).entries[i]? = env.entries[i]? := by
  induction commands with
  | nil => exact fun _ => rfl
  | cons c commands ih =>
    intro env hi
    rw [List.mem_cons, not_or] at hkept
    have hc := Ne.symm hkept.1
    rw [← entries_perform hi hc (hdefines c List.mem_cons_self)]
    exact ih hkept.2 (fun d hd => hdefines d (List.mem_cons_of_mem c hd)) (entryOf?_perform hi hc)

end

/-! Identifiers -/

theorem functionId?_eq_some_iff {env : Environment} (small : env.functionCount < UInt32.size)
    {name : String} {f : FunctionId} :
    env.functionId? name = some f ↔ env.entryOf? name = some f.index.toNat := by
  rw [functionId?, Option.map_eq_some_iff]
  constructor
  · rintro ⟨i, hi, rfl⟩
    have hlt : i < env.functionCount := lt_functionCount_of_binds (binds_of_entryOf? hi)
    have hnumber : (UInt32.ofNat i).toNat = i := UInt32.toNat_ofNat_of_lt (Nat.lt_trans hlt small)
    exact hnumber.symm ▸ hi
  · exact fun h => ⟨_, h, by rw [UInt32.ofNat_toNat]⟩

structure Identifies (env : Environment) : Prop where
  name_unique : ∀ {name other : String} {f : FunctionId}, env.functionId? name = some f →
    env.functionId? other = some f → name = other
  stored : ∀ {name : String} {f : FunctionId}, env.functionId? name = some f →
    ∃ function, env.function? f = some function ∧ function.name = name
  redefined : ∀ {name : String} {f : FunctionId}, env.functionId? name = some f →
    ∀ argc body, (env.define name argc body).1 = f ∧
      (env.define name argc body).2.functionId? name = some f

theorem identifies {env : Environment} (small : env.functionCount < UInt32.size) :
    env.Identifies where
  name_unique h h' := by
    rw [functionId?_eq_some_iff small] at h h'
    exact (binds_of_entryOf? h).name_eq (binds_of_entryOf? h')
  stored h := by
    rw [functionId?_eq_some_iff small] at h
    obtain ⟨entry, hentry, -, hname⟩ := binds_of_entryOf? h
    exact ⟨entry.function, by rw [function?, hentry, Option.map_some], hname⟩
  redefined {name f} h argc body := by
    rw [functionId?_eq_some_iff small] at h
    have hid : (⟨UInt32.ofNat (env.placeFor name)⟩ : FunctionId) = f := by
      rw [placeFor_of_entryOf? h, UInt32.ofNat_toNat]
    refine ⟨by rw [define_fst, hid], ?_⟩
    rw [← hid]
    exact (env.updates_define ⟨name, argc, body⟩).functionId?_self

variable [SpecialFunctions]

/-- The identifier is that of a removed function: no name finds it, and a call through it is NaN as
soon as its arguments are evaluated, however many there are. -/
structure Vacant (env : Environment) (name : String) (f : FunctionId) : Prop where
  function? : env.function? f = some (vacated name).function
  unbound : ∀ other, env.functionId? other ≠ some f
  call : ∀ depth (nodes : Array Node) frame pos argc, nodes[pos]? = some (.call f argc) →
    walkAt (depth + 1) nodes frame env pos
      = (Walk.operands (walkAt depth nodes frame) argc.toNat env (pos + 1)).map
          fun (_, _, stop) => ⟨nan, stop, env⟩

theorem walkAt_call_of_vacated {env : Environment} {name : String} {f : FunctionId}
    (h : env.function? f = some (vacated name).function) (depth : Nat) (nodes : Array Node)
    (frame : Frame) (pos : Nat) (argc : UInt32) (hn : nodes[pos]? = some (.call f argc)) :
    walkAt (depth + 1) nodes frame env pos
      = (Walk.operands (walkAt depth nodes frame) argc.toNat env (pos + 1)).map
          fun (_, _, stop) => ⟨nan, stop, env⟩ := by
  rw [walkAt, hn]
  dsimp only
  rw [Walk.call]
  cases hargs : Walk.operands (walkAt depth nodes frame) argc.toNat env (pos + 1) with
  | none => rfl
  | some result =>
    obtain ⟨values, after, stop⟩ := result
    obtain ⟨rfl, -⟩ := Walk.operands_keeps (walkAt_keeps depth nodes frame) hargs
    have hnull : ((vacated name).function.argc != argc ||
        (vacated name).function.body.isNull) = true := by simp [vacated]
    simp only [bind, Option.bind, h, hnull, if_true, pure, Option.map_some]

theorem vacant_of_entries {env : Environment} (small : env.functionCount < UInt32.size)
    {name : String} {f : FunctionId} (h : env.entries[f.index.toNat]? = some (vacated name)) :
    env.Vacant name f := by
  have hfunction : env.function? f = some (vacated name).function := by
    rw [function?, h, Option.map_some]
  refine ⟨hfunction, fun other hother => ?_, walkAt_call_of_vacated hfunction⟩
  rw [functionId?_eq_some_iff small] at hother
  obtain ⟨entry, hentry, hbound, -⟩ := binds_of_entryOf? hother
  cases h.symm.trans hentry
  cases hbound

section

variable {env : Environment} {name : String} {f : FunctionId} (more : List FunctionCommand)

omit [SpecialFunctions] in
theorem functionId?_performAll (small : (env.performAll more).functionCount < UInt32.size)
    (hf : env.functionId? name = some f) (hkept : .remove name ∉ more) :
    (env.performAll more).functionId? name = some f ∧
      ((∀ c ∈ more, ¬ c.Defines name) → (env.performAll more).function? f = env.function? f) := by
  rw [functionId?_eq_some_iff (Nat.lt_of_le_of_lt (functionCount_performAll more _) small)] at hf
  rw [functionId?_eq_some_iff small]
  refine ⟨entryOf?_performAll more hkept hf, fun hdefines => ?_⟩
  rw [function?, function?, entries_performAll more hkept hdefines hf]

theorem vacant_performAll
    (small : (env.performAll (.remove name :: more)).functionCount < UInt32.size)
    (hf : env.functionId? name = some f) :
    (env.performAll (.remove name :: more)).Vacant name f := by
  rw [functionId?_eq_some_iff (Nat.lt_of_le_of_lt (functionCount_performAll _ _) small)] at hf
  refine vacant_of_entries small (performAll_of_unbound more rfl ?_)
  obtain ⟨removed, hremoved⟩ : ∃ removed, env.remove? name = some removed := by
    rw [remove?, hf]
    exact ⟨_, rfl⟩
  rw [perform, hremoved, Option.getD_some, ← placeFor_of_entryOf? hf]
  exact (updates_remove? hremoved).entries_self

end

end Environment

end PrefixCalculus
