import Mathlib.Data.List.Infix
import PrefixCalculus.Environment.Store
import PrefixCalculus.Numeric.Series
import PrefixCalculus.Proofs.FunctionIds
set_option autoImplicit false

/-!
The functions of a store, kept in an array and a map. Each operation is compared with the one on the
environment that the store holds: it finds every place that it reaches for, keeps map and array
together, and leaves a store that holds what the environment becomes. Main statement: through any
commands the identifiers of bound names are their own, lead back to the names and stay with them, and
the identifier of a removed function is never bound again, so that calls through it are NaN.
-/

namespace PrefixCalculus

theorem overwrite?_of_lt {α : Type} {xs : Array α} {i : Nat} (h : i < xs.size) (x : α) :
    overwrite? xs i x = some (xs.setIfInBounds i x) :=
  if_pos h

namespace Store

section

variable {s : Store} {name : String} (r : s.Registered)
include r

theorem binds_iff {i : Nat} :
    s.environment.Binds i name ↔ ∃ f, s.functionId? name = some f ∧ f.index.toNat = i := by
  simp only [Environment.Binds, environment, entries, Array.getElem?_mapIdx,
    Option.map_eq_some_iff]
  constructor
  · rintro ⟨entry, ⟨function, hfunction, rfl⟩, hbound, rfl⟩
    simpa [functionId?] using hbound
  · rintro ⟨f, hf, rfl⟩
    obtain ⟨function, hfunction, rfl⟩ := r.stored hf
    rw [functionId?] at hf
    exact ⟨_, ⟨function, hfunction, rfl⟩, by simp [hf], rfl⟩

theorem entryOf?_environment :
    s.environment.entryOf? name = (s.functionId? name).map fun f => f.index.toNat := by
  apply Option.ext
  intro i
  rw [Environment.entryOf?_eq_some_iff, binds_iff r, Option.map_eq_some_iff]
  constructor
  · exact And.left
  · rintro ⟨f, hf, rfl⟩
    refine ⟨⟨f, hf, rfl⟩, fun j hj hbinds => ?_⟩
    obtain ⟨g, hg, rfl⟩ := (binds_iff r).1 hbinds
    rw [hf, Option.some.injEq] at hg
    rw [hg] at hj
    exact Nat.lt_irrefl _ hj

theorem functionId?_environment : s.environment.functionId? name = s.functionId? name := by
  rw [Environment.functionId?, entryOf?_environment r, Option.map_map]
  cases s.functionId? name with
  | none => rfl
  | some f => simp

end

section

variable {s : Store}

theorem function?_environment (f : FunctionId) : s.environment.function? f = s.function? f := by
  simp [Environment.function?, function?, environment, entries, Function.comp_def]

theorem getElem?_entries (i : Nat) : s.environment.entries[i]? = s.functions[i]?.map fun function =>
    ⟨function, (s.functionId? function.name).map (fun f => f.index.toNat) == some i⟩ :=
  Array.getElem?_mapIdx

theorem functionCount_environment : s.environment.functionCount = s.functionCount := by
  simp [Environment.functionCount, functionCount, environment, entries]

end

section

variable {s : Store} {name other : String} (r : s.Registered)
include r

theorem placeFor_of_functionId? {f : FunctionId} (h : s.functionId? name = some f) :
    s.environment.placeFor name = f.index.toNat := by
  rw [Environment.placeFor, entryOf?_environment r, h, Option.map_some, Option.getD_some]

theorem placeFor_of_new (h : s.functionId? name = none) :
    s.environment.placeFor name = s.functions.size := by
  rw [Environment.placeFor, entryOf?_environment r, h, Option.map_none, Option.getD_none,
    functionCount_environment, functionCount]

theorem ne_placeFor_of_functionId? {f : FunctionId} (h : s.functionId? other = some f)
    (hne : other ≠ name) : f.index.toNat ≠ s.environment.placeFor name := by
  have hbinds : s.environment.Binds f.index.toNat other := (binds_iff r).2 ⟨f, h, rfl⟩
  intro heq
  rcases s.environment.binds_placeFor name with hname | hnew
  · exact hne (hbinds.name_eq (heq ▸ hname))
  · have := Environment.lt_functionCount_of_binds hbinds
    omega

end

/-- The outcome is there, keeps what is said of stores, and holds what the environment becomes. -/
def Refines {α : Type} (kept : Store → Prop) (outcome : Option (α × Store))
    (result : α × Environment) : Prop :=
  ∃ after, outcome = some (result.1, after) ∧ kept after ∧ after.environment = result.2

/-- The function is in the place of its name, and the name finds it there or nothing. -/
structure Stores (s after : Store) (function : Function) (bound : Bool) : Prop where
  functions : ∀ i : Nat, after.functions[i]?
    = if i = s.environment.placeFor function.name then some function else s.functions[i]?
  functionId?_self : (after.functionId? function.name).map (fun f => f.index.toNat)
    = if bound then some (s.environment.placeFor function.name) else none
  functionId?_of_ne : ∀ {other : String}, other ≠ function.name →
    after.functionId? other = s.functionId? other
  values : after.values = s.values
  names : after.names = s.names
  labels : after.labels = s.labels
  free : after.free = s.free

namespace Stores

variable {s after : Store} {function : Function} {bound : Bool}
  (h : s.Stores after function bound)
include h

theorem registered (r : s.Registered) : after.Registered where
  stored {other f} hf := by
    rw [function?, h.functions]
    by_cases hother : other = function.name
    · subst hother
      have hself := h.functionId?_self
      rw [hf, Option.map_some] at hself
      split at hself
      · rw [Option.some.injEq] at hself
        exact ⟨function, if_pos hself, rfl⟩
      · cases hself
    · rw [h.functionId?_of_ne hother] at hf
      rw [if_neg (ne_placeFor_of_functionId? r hf hother)]
      exact r.stored hf

theorem consistent (c : s.Consistent) : after.Consistent where
  stored := (h.registered c.toRegistered).stored
  size_labels := by rw [h.labels, h.values, c.size_labels]
  lookup?_iff {other a} := by
    have hiff : s.lookup? other = some a ↔ s.nameOf? a = some other := c.lookup?_iff
    rw [lookup?, nameOf?] at hiff ⊢
    rw [h.names, h.labels, hiff]
  mem_free_iff := by
    rw [h.free, h.labels]
    exact c.mem_free_iff
  last_named := by
    rw [h.labels]
    exact c.last_named

variable (r : s.Registered)
include r

theorem updates : s.environment.Updates after.environment ⟨function, bound⟩ := by
  intro i
  rw [getElem?_entries, h.functions]
  split
  · rename_i hi
    rw [Option.map_some, h.functionId?_self, ← hi]
    cases bound <;> simp
  · rename_i hi
    rw [getElem?_entries]
    refine Option.map_congr fun found _ => ?_
    by_cases hname : found.name = function.name
    · have hafter : (after.functionId? function.name).map (fun f => f.index.toNat) ≠ some i := by
        rw [h.functionId?_self]
        split
        · exact fun heq => hi (Option.some.inj heq).symm
        · exact (Option.some_ne_none i).symm
      have hbefore : (s.functionId? function.name).map (fun f => f.index.toNat) ≠ some i := by
        rw [Ne, Option.map_eq_some_iff]
        rintro ⟨f, hf, rfl⟩
        exact hi (placeFor_of_functionId? r hf).symm
      rw [hname, beq_false_of_ne hafter, beq_false_of_ne hbefore]
    · rw [h.functionId?_of_ne hname]

theorem environment_eq {env : Environment} (hslots : env.slots = s.environment.slots)
    (hupdates : s.environment.Updates env ⟨function, bound⟩) : after.environment = env := by
  have hafter : after.environment.slots = env.slots := by
    rw [hslots, environment, slots, h.labels, h.values]
    rfl
  have hentries : after.environment.entries = env.entries := by
    apply Array.ext_getElem?
    intro i
    rw [h.updates r i, hupdates i]
  exact congrArg₂ Environment.mk hafter hentries

end Stores

section

variable {s : Store} (r : s.Registered)
include r

theorem exists_stores_define (small : s.functionCount < UInt32.size) (function : Function) :
    ∃ after, s.define function.name function.argc function.body
        = some (⟨UInt32.ofNat (s.environment.placeFor function.name)⟩, after) ∧
      s.Stores after function true := by
  cases h : s.functionId? function.name with
  | some f =>
    have hplace := placeFor_of_functionId? r h
    obtain ⟨found, hfound, -⟩ := r.stored h
    have hlt : f.index.toNat < s.functions.size := (Array.getElem?_eq_some_iff.1 hfound).1
    rw [functionId?] at h
    refine ⟨{ s with functions := s.functions.setIfInBounds f.index.toNat function }, ?_, ?_⟩
    · rw [define, h, hplace, UInt32.ofNat_toNat]
      simp only [overwrite?_of_lt hlt, bind, Option.bind]
      rfl
    · refine ⟨fun i => ?_, ?_, fun _ => rfl, rfl, rfl, rfl, rfl⟩
      · simp only [Array.getElem?_setIfInBounds, hlt, if_true, hplace, eq_comm]
      · rw [functionId?, h, hplace]
        rfl
  | none =>
    have hplace := placeFor_of_new r h
    have hnumber : (UInt32.ofNat s.functions.size).toNat = s.functions.size :=
      UInt32.toNat_ofNat_of_lt small
    rw [functionId?] at h
    refine ⟨{ s with
      functions := s.functions.push function
      functionNames := s.functionNames.insert function.name ⟨UInt32.ofNat s.functions.size⟩ },
      ?_, ?_⟩
    · rw [define, h, hplace]
    · refine ⟨fun i => ?_, ?_, fun {other} hother => ?_, rfl, rfl, rfl, rfl⟩
      · rw [Array.getElem?_push, hplace]
      · rw [functionId?, Std.TreeMap.getElem?_insert_self, Option.map_some, hnumber, hplace]
        rfl
      · rw [functionId?, Std.TreeMap.getElem?_insert, if_neg, functionId?]
        rw [Std.LawfulEqOrd.compare_eq_iff_eq]
        exact Ne.symm hother

theorem exists_stores_remove {name : String} {f : FunctionId} (h : s.functionId? name = some f) :
    ∃ after, s.remove name = some (true, after) ∧
      s.Stores after (Environment.vacated name).function false := by
  have hplace := placeFor_of_functionId? r h
  obtain ⟨found, hfound, -⟩ := r.stored h
  have hlt : f.index.toNat < s.functions.size := (Array.getElem?_eq_some_iff.1 hfound).1
  rw [functionId?] at h
  refine ⟨{ s with
    functions := s.functions.setIfInBounds f.index.toNat ⟨name, 0, Expression.null⟩
    functionNames := s.functionNames.erase name }, ?_, ?_⟩
  · rw [remove, h]
    simp only [overwrite?_of_lt hlt, bind, Option.bind]
    rfl
  · refine ⟨fun i => ?_, ?_, fun {other} hother => ?_, rfl, rfl, rfl, rfl⟩
    · simp only [Array.getElem?_setIfInBounds, hlt, if_true, Environment.vacated, hplace, eq_comm]
    · rw [functionId?, Environment.vacated, Std.TreeMap.getElem?_erase_self]
      rfl
    · rw [functionId?, Std.TreeMap.getElem?_erase, if_neg, functionId?]
      rw [Std.LawfulEqOrd.compare_eq_iff_eq]
      exact Ne.symm hother

theorem refines_define (small : s.functionCount < UInt32.size) (name : String) (argc : UInt32)
    (body : Expression) :
    Refines Registered (s.define name argc body) (s.environment.define name argc body) := by
  obtain ⟨after, houtcome, hstores⟩ := exists_stores_define r small ⟨name, argc, body⟩
  refine ⟨after, ?_, hstores.registered r, ?_⟩
  · rw [Environment.define_fst, houtcome]
  · exact hstores.environment_eq r (Environment.slots_define argc body)
      (s.environment.updates_define ⟨name, argc, body⟩)

theorem refines_remove (name : String) : Refines Registered (s.remove name)
    (match s.environment.remove? name with
      | some after => (true, after)
      | none => (false, s.environment)) := by
  cases h : s.functionId? name with
  | none =>
    have hentry : s.environment.entryOf? name = none := by
      rw [entryOf?_environment r, h, Option.map_none]
    rw [Environment.remove?, hentry, Option.map_none]
    rw [functionId?] at h
    exact ⟨s, by rw [remove, h], r, rfl⟩
  | some f =>
    have hentry : s.environment.entryOf? name = some f.index.toNat := by
      rw [entryOf?_environment r, h, Option.map_some]
    obtain ⟨removed, hremoved⟩ : ∃ removed, s.environment.remove? name = some removed := by
      rw [Environment.remove?, hentry]
      exact ⟨_, rfl⟩
    obtain ⟨after, houtcome, hstores⟩ := exists_stores_remove r h
    rw [hremoved]
    exact ⟨after, houtcome, hstores.registered r, hstores.environment_eq r
      (Environment.slots_remove? hremoved) (Environment.updates_remove? hremoved)⟩

end

/-! Commands -/

inductive FunctionCommand
  | define (name : String) (argc : UInt32) (body : Expression)
  | remove (name : String)
  | setVariables (values : Array Float) (names : Std.TreeMap String Address)
      (labels : Array (Option String)) (free : Std.TreeSet UInt32)

namespace FunctionCommand

def Defines : FunctionCommand → String → Prop
  | define name _ _, other => name = other
  | remove _, _ | setVariables .., _ => False

def held : FunctionCommand → Environment.FunctionCommand
  | define name argc body => .define name argc body
  | remove name => .remove name
  | setVariables values _ labels _ => .setSlots (labels.zipWith Slot.mk values)

theorem held_eq_remove_iff {c : FunctionCommand} {name : String} :
    c.held = .remove name ↔ c = .remove name := by
  cases c <;> simp [held]

theorem defines_held_iff {c : FunctionCommand} {name : String} :
    c.held.Defines name ↔ c.Defines name := by
  cases c <;> rfl

end FunctionCommand

def perform (s : Store) : FunctionCommand → Option Store
  | .define name argc body => (s.define name argc body).map Prod.snd
  | .remove name => (s.remove name).map Prod.snd
  | .setVariables values names labels free => some { s with values, names, labels, free }

def performAll (s : Store) (commands : List FunctionCommand) : Option Store :=
  commands.foldlM perform s

def HasRoom (s : Store) (commands : List FunctionCommand) : Prop :=
  ∀ before ∈ commands.inits, ∀ mid ∈ s.performAll before, mid.functionCount < UInt32.size

theorem performAll_append {s mid : Store} {before : List FunctionCommand}
    (h : s.performAll before = some mid) (more : List FunctionCommand) :
    s.performAll (before ++ more) = mid.performAll more := by
  rw [performAll, List.foldlM_append, ← performAll, h]
  rfl

theorem refines_perform {s : Store} (r : s.Registered) (small : s.functionCount < UInt32.size)
    (c : FunctionCommand) : ∃ after, s.perform c = some after ∧ after.Registered ∧
      after.environment = s.environment.perform c.held := by
  cases c with
  | define name argc body =>
    obtain ⟨after, houtcome, hafter, hholds⟩ := refines_define r small name argc body
    exact ⟨after, by rw [perform, houtcome, Option.map_some], hafter, hholds⟩
  | remove name =>
    obtain ⟨after, houtcome, hafter, hholds⟩ := refines_remove r name
    refine ⟨after, by rw [perform, houtcome, Option.map_some], hafter, ?_⟩
    rw [hholds, FunctionCommand.held, Environment.perform]
    cases s.environment.remove? name <;> rfl
  | setVariables values names labels free => exact ⟨_, rfl, ⟨r.stored⟩, rfl⟩

theorem HasRoom.now {s : Store} {commands : List FunctionCommand} (room : s.HasRoom commands) :
    s.functionCount < UInt32.size :=
  room [] ((List.mem_inits _ _).2 List.nil_prefix) s rfl

theorem HasRoom.after {s mid : Store} {before more : List FunctionCommand}
    (room : s.HasRoom (before ++ more)) (h : s.performAll before = some mid) :
    mid.HasRoom more := by
  intro later hlater final hfinal
  refine room (before ++ later) ?_ final ?_
  · rw [List.mem_inits] at hlater ⊢
    exact (List.prefix_append_right_inj before).2 hlater
  · rw [performAll_append h]
    exact hfinal

theorem HasRoom.before {s : Store} {before more : List FunctionCommand}
    (room : s.HasRoom (before ++ more)) : s.HasRoom before := by
  intro first hfirst
  rw [List.mem_inits] at hfirst
  exact room first ((List.mem_inits _ _).2 (hfirst.trans (List.prefix_append before more)))

theorem refines_performAll (commands : List FunctionCommand) : ∀ {s : Store}, s.Registered →
    s.HasRoom commands → ∃ final, s.performAll commands = some final ∧ final.Registered ∧
      final.environment = s.environment.performAll (commands.map FunctionCommand.held) := by
  induction commands with
  | nil => exact fun {s} r _ => ⟨s, rfl, r, rfl⟩
  | cons c commands ih =>
    intro s r room
    obtain ⟨mid, hmid, rmid, hholds⟩ := refines_perform r room.now c
    have hfirst : s.performAll [c] = some mid := by
      rw [performAll, List.foldlM_cons, hmid]
      rfl
    have room' : mid.HasRoom commands := @HasRoom.after s mid [c] commands room hfirst
    obtain ⟨final, hfinal, rfinal, hholds'⟩ := ih rmid room'
    refine ⟨final, ?_, rfinal, ?_⟩
    · rw [← List.singleton_append, performAll_append hfirst, hfinal]
    · rw [hholds', hholds]
      rfl

section

variable [SpecialFunctions]

/-! Identifiers -/

structure Identifies (s : Store) : Prop where
  name_unique : ∀ {name other : String} {f : FunctionId}, s.functionId? name = some f →
    s.functionId? other = some f → name = other
  stored : ∀ {name : String} {f : FunctionId}, s.functionId? name = some f →
    ∃ function, s.function? f = some function ∧ function.name = name
  redefined : ∀ {name : String} {f : FunctionId}, s.functionId? name = some f →
    ∀ argc body, ∃ after, s.define name argc body = some (f, after) ∧
      after.functionId? name = some f ∧ after.function? f = some ⟨name, argc, body⟩

/-- The identifier is that of a removed function: no name finds it, and a call through it is NaN as
soon as its arguments are evaluated, however many there are. -/
structure Vacant (s : Store) (name : String) (f : FunctionId) : Prop where
  function? : s.function? f = some (Environment.vacated name).function
  unbound : ∀ other, s.functionId? other ≠ some f
  call : ∀ depth (nodes : Array Node) frame pos argc, nodes[pos]? = some (.call f argc) →
    walkAt (depth + 1) nodes frame s.environment pos
      = (Walk.operands (walkAt depth nodes frame) argc.toNat s.environment (pos + 1)).map
          fun (_, _, stop) => ⟨nan, stop, s.environment⟩

omit [SpecialFunctions] in
theorem identifies {s : Store} (r : s.Registered) (small : s.functionCount < UInt32.size) :
    s.Identifies where
  name_unique h h' := by
    obtain ⟨function, hfunction, rfl⟩ := r.stored h
    obtain ⟨function', hfunction', rfl⟩ := r.stored h'
    rw [hfunction, Option.some.injEq] at hfunction'
    rw [hfunction']
  stored := r.stored
  redefined {name f} h argc body := by
    obtain ⟨after, houtcome, hstores⟩ := exists_stores_define r small ⟨name, argc, body⟩
    have hplace := placeFor_of_functionId? r h
    rw [hplace, UInt32.ofNat_toNat] at houtcome
    refine ⟨after, houtcome, ?_, ?_⟩
    · have hself := hstores.functionId?_self
      rw [if_pos rfl, hplace, Option.map_eq_some_iff] at hself
      obtain ⟨g, hg, heq⟩ := hself
      have hsame : g = f := by
        cases g
        cases f
        exact congrArg FunctionId.mk (UInt32.toNat_inj.1 heq)
      rw [hg, hsame]
    · rw [function?, hstores.functions, hplace, if_pos rfl]

theorem vacant {s : Store} (r : s.Registered) {name : String} {f : FunctionId}
    (h : s.environment.Vacant name f) : s.Vacant name f where
  function? := by rw [← function?_environment, h.function?]
  unbound other := by
    rw [← functionId?_environment r]
    exact h.unbound other
  call := h.call

/-- **Identifiers are stable and never used twice.** Through any commands on any store, with less
places than identifiers at all times, every place that is reached for is there. In the end a bound
name has an identifier of its own that leads back to it and that a definition keeps. From any point
on, a name keeps its identifier unless it is removed, and this denotes the same function unless the
name is defined again. The identifier of a removed function stays vacant, whatever follows, also if
the name is given to another function. -/
theorem identifiers_stable (s : Store) (registered : s.Registered) (commands : List FunctionCommand)
    (room : s.HasRoom commands) : ∃ final, s.performAll commands = some final ∧
    final.Registered ∧ final.Identifies ∧
    (∀ before more mid name f, commands = before ++ more → s.performAll before = some mid →
      mid.functionId? name = some f → .remove name ∉ more →
      final.functionId? name = some f ∧
        ((∀ c ∈ more, ¬ c.Defines name) → final.function? f = mid.function? f)) ∧
    ∀ before more mid name f, commands = before ++ .remove name :: more →
      s.performAll before = some mid → mid.functionId? name = some f → final.Vacant name f := by
  obtain ⟨final, hfinal, rfinal, hholds⟩ := refines_performAll commands registered room
  have hsmall : (s.environment.performAll (commands.map FunctionCommand.held)).functionCount
      < UInt32.size := by
    rw [← hholds, functionCount_environment]
    exact room commands ((List.mem_inits _ _).2 List.prefix_rfl) final hfinal
  -- The environment in the middle, and the commands that lead from it to the last one.
  have hmiddle : ∀ {before more mid}, commands = before ++ more → s.performAll before = some mid →
      mid.Registered ∧ final.environment
        = mid.environment.performAll (more.map FunctionCommand.held) := by
    rintro before more mid rfl hmid
    obtain ⟨mid', hmid', rmid, -⟩ := refines_performAll before registered room.before
    rw [hmid, Option.some.injEq] at hmid'
    subst hmid'
    refine ⟨rmid, ?_⟩
    obtain ⟨final', hfinal', -, hholds'⟩ := refines_performAll more rmid (room.after hmid)
    rw [performAll_append hmid, hfinal', Option.some.injEq] at hfinal
    rw [← hfinal, hholds']
  refine ⟨final, hfinal, rfinal, identifies rfinal ?_, ?_, ?_⟩
  · rwa [← functionCount_environment, hholds]
  · intro before more mid name f hcommands hmid hf hkept
    obtain ⟨rmid, hlater⟩ := hmiddle hcommands hmid
    rw [← hholds, hlater] at hsmall
    rw [← functionId?_environment rmid] at hf
    have hkept' : .remove name ∉ more.map FunctionCommand.held := by
      rw [List.mem_map]
      rintro ⟨c, hc, hheld⟩
      rw [FunctionCommand.held_eq_remove_iff.1 hheld] at hc
      exact hkept hc
    obtain ⟨hid, hsame⟩ := Environment.functionId?_performAll _ hsmall hf hkept'
    rw [← functionId?_environment rfinal, ← function?_environment, ← function?_environment, hlater]
    refine ⟨hid, fun hdefines => hsame fun c hc => ?_⟩
    obtain ⟨d, hd, rfl⟩ := List.mem_map.1 hc
    rw [FunctionCommand.defines_held_iff]
    exact hdefines d hd
  · intro before more mid name f hcommands hmid hf
    obtain ⟨rmid, hlater⟩ := hmiddle hcommands hmid
    rw [← hholds, hlater] at hsmall
    rw [← functionId?_environment rmid] at hf
    refine vacant rfinal ?_
    rw [hlater]
    exact Environment.vacant_performAll _ hsmall hf

end

open Series

/-- A function `f` that `g` calls, which is removed and defined again while `g` is redefined. -/
def replacement : List FunctionCommand :=
  [.define "f" 1 (.binary .add (.arg 0) (.const 1.0)), .define "g" 1 (.call ⟨0⟩ [.arg 0]),
    .remove "f", .define "f" 2 (.arg 1), .define "g" 1 (.call ⟨0⟩ [.arg 0, .arg 0])]

/-- The new `f` has another identifier than the old one, which is vacant, and `g` has kept its own. -/
theorem identifiers_of_replacement : empty.Registered ∧ empty.HasRoom replacement ∧
    ∃ final, empty.performAll replacement = some final ∧ final.Vacant "f" ⟨0⟩ ∧
      final.functionId? "g" = some ⟨1⟩ ∧ final.functionId? "f" = some ⟨2⟩ := by
  have room : empty.HasRoom replacement := by
    unfold HasRoom
    decide +kernel
  have registered := consistent_empty.toRegistered
  obtain ⟨final, hfinal, -, -, hkept, hvacant⟩ :=
    identifiers_stable empty registered replacement room
  have hnew : (empty.performAll replacement).bind (functionId? · "f") = some ⟨2⟩ := by
    decide +kernel
  rw [hfinal, Option.bind_some] at hnew
  have hmid : ∃ mid, empty.performAll (replacement.take 2) = some mid ∧
      mid.functionId? "f" = some ⟨0⟩ ∧ mid.functionId? "g" = some ⟨1⟩ := ⟨_, rfl, by decide +kernel⟩
  obtain ⟨mid, hmid, hf, hg⟩ := hmid
  refine ⟨registered, room, final, hfinal, ?_, ?_, hnew⟩
  · exact hvacant (replacement.take 2) (replacement.drop 3) mid "f" ⟨0⟩ rfl hmid hf
  · exact (hkept (replacement.take 2) (replacement.drop 2) mid "g" ⟨1⟩ rfl hmid hg
      (by simp [replacement])).1

end Store

end PrefixCalculus
