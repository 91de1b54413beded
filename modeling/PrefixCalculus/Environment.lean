import PrefixCalculus.Expression
import PrefixCalculus.Numeric.Parts
set_option autoImplicit false

/-!
The variables and functions that expressions refer to. A variable lives in a slot; a slot without a
name is free, and the first free slot is given out before the store grows. No free slot is ever the
last one. Functions keep their place for good: a removed function leaves an empty one behind that its
name no longer finds.
-/

namespace PrefixCalculus

/-- A place for a number, free when it has no name. -/
structure Slot where
  name : Option String
  value : Float
  deriving DecidableEq, Inhabited

structure Function where
  name : String
  argc : UInt32
  body : Expression
  deriving DecidableEq, Inhabited

structure Entry where
  function : Function
  bound : Bool
  deriving DecidableEq, Inhabited

structure Environment where
  slots : Array Slot
  entries : Array Entry
  deriving DecidableEq, Inhabited

namespace Environment

def empty : Environment := ⟨#[], #[]⟩

/-! Variables -/

def slotOf? (env : Environment) (name : String) : Option Nat :=
  env.slots.findIdx? fun slot => slot.name == some name

def lookup? (env : Environment) (name : String) : Option Address :=
  (env.slotOf? name).map fun i => ⟨UInt32.ofNat i⟩

def isSet (env : Environment) (name : String) : Bool :=
  (env.lookup? name).isSome

def lookup (env : Environment) (name : String) : Address :=
  (env.lookup? name).getD Address.none

def allocate (env : Environment) (name : String) : Address × Environment :=
  let slot : Slot := ⟨some name, nan⟩
  match env.slots.findIdx? fun slot => slot.name.isNone with
  | some i => (⟨UInt32.ofNat i⟩, { env with slots := env.slots.setIfInBounds i slot })
  | none => (⟨UInt32.ofNat env.slots.size⟩, { env with slots := env.slots.push slot })

def resolve (env : Environment) (name : String) : Address × Environment :=
  match env.lookup? name with
  | some a => (a, env)
  | none => env.allocate name

def value (env : Environment) (a : Address) : Float :=
  match env.slots[a.index.toNat]? with
  | some slot => slot.value
  | none => nan

def setValue (env : Environment) (a : Address) (value : Float) : Environment :=
  { env with slots := env.slots.modify a.index.toNat fun slot => { slot with value } }

/-- Run something that may set a variable; afterwards the variable has its old value. -/
def binding {α : Type} (a : Address) (run : Environment → Option (α × Environment))
    (env : Environment) : Option (α × Environment) :=
  (run env).map fun (result, after) => (result, after.setValue a (env.value a))

def get (env : Environment) (name : String) : Float :=
  match env.lookup? name with
  | some a => env.value a
  | none => nan

def set (env : Environment) (name : String) (value : Float) : Address × Environment :=
  let (a, env) := env.resolve name
  (a, env.setValue a value)

/-- Free the slot of a name. The store shrinks to its last slot in use; there is no environment to
give back if the name has no slot. -/
def delete? (env : Environment) (name : String) : Option Environment :=
  (env.slotOf? name).map fun i =>
    let slots := env.slots.setIfInBounds i ⟨none, nan⟩
    { env with slots := slots.popWhile fun slot => slot.name.isNone }

def nameOf? (env : Environment) (a : Address) : Option String :=
  env.slots[a.index.toNat]?.bind Slot.name

def capacity (env : Environment) : Nat :=
  env.slots.size

/-! Functions -/

def entryOf? (env : Environment) (name : String) : Option Nat :=
  env.entries.findIdx? fun entry => entry.bound && entry.function.name == name

def functionId? (env : Environment) (name : String) : Option FunctionId :=
  (env.entryOf? name).map fun i => ⟨UInt32.ofNat i⟩

/-- The function in a place, removed or not. -/
def function? (env : Environment) (f : FunctionId) : Option Function :=
  env.entries[f.index.toNat]?.map Entry.function

def functionCount (env : Environment) : Nat :=
  env.entries.size

/-- Put a function in the place that its name finds, or in a new one. -/
def define (env : Environment) (name : String) (argc : UInt32) (body : Expression) :
    FunctionId × Environment :=
  let entry : Entry := ⟨⟨name, argc, body⟩, true⟩
  match env.entryOf? name with
  | some i => (⟨UInt32.ofNat i⟩, { env with entries := env.entries.setIfInBounds i entry })
  | none => (⟨UInt32.ofNat env.entries.size⟩, { env with entries := env.entries.push entry })

def remove? (env : Environment) (name : String) : Option Environment :=
  (env.entryOf? name).map fun i =>
    { env with entries := env.entries.setIfInBounds i ⟨⟨name, 0, Expression.null⟩, false⟩ }

@[simp] theorem setValue_entries (env : Environment) (a : Address) (v : Float) :
    (env.setValue a v).entries = env.entries := rfl

@[simp] theorem capacity_setValue (env : Environment) (a : Address) (v : Float) :
    (env.setValue a v).capacity = env.capacity := by
  simp [setValue, capacity]

@[simp] theorem function?_setValue (env : Environment) (a : Address) (v : Float) (f : FunctionId) :
    (env.setValue a v).function? f = env.function? f := rfl

theorem value_setValue_self (env : Environment) (a : Address) (v : Float)
    (h : a.index.toNat < env.capacity) : (env.setValue a v).value a = v := by
  simp only [capacity] at h
  simp [setValue, value, h, Array.getElem_modify]

theorem value_setValue_of_ne (env : Environment) {a b : Address} (v : Float) (h : a ≠ b) :
    (env.setValue a v).value b = env.value b := by
  have hi : a.index.toNat ≠ b.index.toNat := by
    intro e
    cases a
    cases b
    simp_all [UInt32.toNat_inj]
  simp [setValue, value, Array.getElem?_modify, hi]

theorem setValue_setValue_value (env : Environment) (a : Address) (v : Float) :
    (env.setValue a v).setValue a (env.value a) = env := by
  obtain ⟨slots, entries⟩ := env
  simp only [setValue, value, Environment.mk.injEq, and_true]
  apply Array.ext_getElem?
  intro i
  simp only [Array.getElem?_modify]
  by_cases h : a.index.toNat = i
  · subst h
    cases hs : slots[a.index.toNat]? <;> simp
  · simp [h]

theorem resolve_of_lookup? {env : Environment} {name : String} {a : Address}
    (h : env.lookup? name = some a) : env.resolve name = (a, env) := by
  simp [resolve, h]

end Environment

end PrefixCalculus
