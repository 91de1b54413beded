import Mathlib.Data.List.Basic
import PrefixCalculus.Environment
set_option autoImplicit false

/-!
The collections that hold an environment. Values and labels stand in two arrays side by side, a map
leads from a name to its address and an ordered set knows the free slots; functions stand in a third
array with a map from names to identifiers. Every operation keeps them in step by hand, so that an
operation on a store that is out of step may reach for a slot that is not there: it then has no
outcome. `Store.environment` is what a store holds.
-/

namespace PrefixCalculus

structure Store where
  values : Array Float
  names : Std.TreeMap String Address
  labels : Array (Option String)
  free : Std.TreeSet UInt32
  functions : Array Function
  functionNames : Std.TreeMap String FunctionId

/-- No outcome where there is no such place. -/
def overwrite? {α : Type} (xs : Array α) (i : Nat) (x : α) : Option (Array α) :=
  if i < xs.size then some (xs.setIfInBounds i x) else none

namespace Store

def empty : Store := ⟨#[], ∅, #[], ∅, #[], ∅⟩

/-! Variables -/

def lookup? (s : Store) (name : String) : Option Address :=
  s.names[name]?

def isSet (s : Store) (name : String) : Bool :=
  s.names.contains name

def nameOf? (s : Store) (a : Address) : Option String :=
  s.labels[a.index.toNat]?.join

def value (s : Store) (a : Address) : Float :=
  s.values[a.index.toNat]?.getD nan

def get (s : Store) (name : String) : Float :=
  ((s.lookup? name).map s.value).getD nan

def capacity (s : Store) : Nat :=
  s.values.size

def setValue (s : Store) (a : Address) (v : Float) : Store :=
  { s with values := s.values.setIfInBounds a.index.toNat v }

def firstFree? (s : Store) : Option UInt32 :=
  s.free.toList.head?

def lastFree? (s : Store) : Option UInt32 :=
  s.free.toList.getLast?

def allocate (s : Store) (name : String) : Option (Address × Store) :=
  match s.firstFree? with
  | some slot => do
    let values ← overwrite? s.values slot.toNat nan
    let labels ← overwrite? s.labels slot.toNat (some name)
    return (⟨slot⟩, { s with
      values, labels
      free := s.free.erase slot
      names := s.names.insert name ⟨slot⟩ })
  | none =>
    let values := s.values.push nan
    let a : Address := ⟨UInt32.ofNat (values.size - 1)⟩
    some (a, { s with
      values
      labels := s.labels.push (some name)
      names := s.names.insert name a })

def resolve (s : Store) (explicit : Bool) (name : String) : Option (Address × Store) :=
  match s.lookup? name with
  | some a => some (a, s)
  | none => if explicit then some (Address.none, s) else s.allocate name

def set (s : Store) (name : String) (v : Float) : Option (Address × Store) := do
  let (a, s) ← s.resolve false name
  return (a, s.setValue a v)

def shrink (s : Store) : Store :=
  match s.lastFree? with
  | some last =>
    if last.toNat + 1 = s.values.size then
      shrink { s with
        free := s.free.erase last
        values := s.values.pop
        labels := s.labels.pop }
    else s
  | none => s
termination_by s.values.size
decreasing_by simp only [Array.size_pop]; omega

/-- Whether the name had an address, which it no longer has. -/
def delete (s : Store) (name : String) : Option (Bool × Store) :=
  match s.names[name]? with
  | none => some (false, s)
  | some a => do
    let names := s.names.erase name
    let labels ← overwrite? s.labels a.index.toNat none
    if a.index.toNat + 1 = s.values.size then
      return (true, shrink { s with names, values := s.values.pop, labels := labels.pop })
    else
      let values ← overwrite? s.values a.index.toNat nan
      return (true, { s with names, labels, values, free := s.free.insert a.index })

/-! Functions -/

def functionId? (s : Store) (name : String) : Option FunctionId :=
  s.functionNames[name]?

def function? (s : Store) (f : FunctionId) : Option Function :=
  s.functions[f.index.toNat]?

def functionCount (s : Store) : Nat :=
  s.functions.size

def define (s : Store) (name : String) (argc : UInt32) (body : Expression) :
    Option (FunctionId × Store) :=
  match s.functionNames[name]? with
  | some f => do
    let functions ← overwrite? s.functions f.index.toNat ⟨name, argc, body⟩
    return (f, { s with functions })
  | none =>
    let f : FunctionId := ⟨UInt32.ofNat s.functions.size⟩
    some (f, { s with
      functions := s.functions.push ⟨name, argc, body⟩
      functionNames := s.functionNames.insert name f })

def remove (s : Store) (name : String) : Option (Bool × Store) :=
  match s.functionNames[name]? with
  | none => some (false, s)
  | some f => do
    let functions ← overwrite? s.functions f.index.toNat ⟨name, 0, Expression.null⟩
    return (true, { s with functions, functionNames := s.functionNames.erase name })

/-! What a store holds -/

def slots (s : Store) : Array Slot :=
  s.labels.zipWith Slot.mk s.values

/-- A function is bound in its place if the map leads from its name to that place. -/
def entries (s : Store) : Array Entry :=
  s.functions.mapIdx fun i function =>
    ⟨function, (s.functionNames[function.name]?.map fun f => f.index.toNat) == some i⟩

def environment (s : Store) : Environment :=
  ⟨s.slots, s.entries⟩

theorem firstFree?_eq_some_iff {s : Store} {slot : UInt32} :
    s.firstFree? = some slot ↔ slot ∈ s.free ∧ ∀ other, other ∈ s.free → slot ≤ other := by
  rw [firstFree?, ← Std.TreeSet.min?_eq_head?_toList, Std.TreeSet.min?_eq_some_iff_mem_and_forall]
  simp only [Std.isLE_compare]

theorem firstFree?_eq_none_iff {s : Store} : s.firstFree? = none ↔ ∀ slot, slot ∉ s.free := by
  rw [firstFree?, ← Std.TreeSet.min?_eq_head?_toList, Std.TreeSet.min?_eq_none_iff,
    Std.TreeSet.isEmpty_iff_forall_not_mem]

theorem lastFree?_eq_some_iff {s : Store} {slot : UInt32} :
    s.lastFree? = some slot ↔ slot ∈ s.free ∧ ∀ other, other ∈ s.free → other ≤ slot := by
  rw [lastFree?, ← Std.TreeSet.max?_eq_getLast?_toList,
    Std.TreeSet.max?_eq_some_iff_mem_and_forall]
  simp only [Std.isLE_compare]

theorem lastFree?_eq_none_iff {s : Store} : s.lastFree? = none ↔ ∀ slot, slot ∉ s.free := by
  rw [lastFree?, ← Std.TreeSet.max?_eq_getLast?_toList, Std.TreeSet.max?_eq_none_iff,
    Std.TreeSet.isEmpty_iff_forall_not_mem]

/-- The map of functions leads to functions of the names. -/
structure Registered (s : Store) : Prop where
  stored : ∀ {name : String} {f : FunctionId}, s.functionId? name = some f →
    ∃ function, s.function? f = some function ∧ function.name = name

structure Consistent (s : Store) : Prop extends Registered s where
  size_labels : s.labels.size = s.values.size
  lookup?_iff : ∀ {name : String} {a : Address},
    s.lookup? name = some a ↔ s.nameOf? a = some name
  mem_free_iff : ∀ {i : UInt32}, i ∈ s.free ↔ s.labels[i.toNat]? = some none
  last_named : s.labels.back? ≠ some none

theorem consistent_empty : empty.Consistent where
  stored := by simp [empty, functionId?]
  size_labels := rfl
  lookup?_iff := by simp [empty, lookup?, nameOf?]
  mem_free_iff := by simp [empty]
  last_named := by simp [empty]

end Store

end PrefixCalculus
