import PrefixCalculus.Toml.Value
set_option autoImplicit false

/-!
The statements of a TOML document and the table that they build. A key is set once. A table gets one
header at most; a dotted key adds only to tables that dotted keys have made, and braces close a table
for good. A doubled header adds one more table under its key, and later headers and keys mean that one.
-/

namespace PrefixCalculus

namespace Toml

structure Key where
  path : List String
  name : String
  deriving DecidableEq

inductive Statement
  /-- `key = value` -/
  | assign (key : Key) (value : Value)
  | table (key : Key)
  | element (key : Key)

namespace Entries

def put (name : String) (value : Value) : Entries → Entries
  | [] => [(name, value)]
  | (k, v) :: es => if k = name then (k, value) :: es else (k, v) :: put name value es

def insert? (name : String) (value : Value) (entries : Entries) : Option Entries :=
  if (entries.lookup name).isSome then none else some (put name value entries)

end Entries

/-- May the way to a key go through a table, when missing tables on it would be made so? -/
def Origin.admits : Origin → Origin → Bool
  | header, made => made != dotted
  | implied, _ | dotted, _ => true
  | inline, _ => false

/-- Change the table that a path leads to. Missing tables on the way are made; of the tables under a
doubled header the way goes through the last. -/
def reach (made : Origin) (change : Origin → Entries → Option Entries) :
    List String → Origin → Entries → Option Entries
  | [], origin, entries => change origin entries
  | name :: path, _, entries =>
    match entries.lookup name with
    | none => do
      let inner ← reach made change path made []
      return entries.put name (.table made inner)
    | some (.table origin inner) =>
      if origin.admits made then do
        let inner ← reach made change path origin inner
        return entries.put name (.table origin inner)
      else none
    | some (.tables last earlier) => do
      let last ← reach made change path .header last
      return entries.put name (.tables last earlier)
    | some _ => none

/-- Set a key in a table; a dotted one ends in a table that dotted keys have made. -/
def assign (key : Key) (value : Value) (entries : Entries) : Option Entries :=
  reach .dotted
    (fun origin entries =>
      if key.path.isEmpty || origin = .dotted then entries.insert? key.name value else none)
    key.path .header entries

def openTable (name : String) (entries : Entries) : Option Entries :=
  match entries.lookup name with
  | none => some (entries.put name (.table .header []))
  | some (.table .implied inner) => some (entries.put name (.table .header inner))
  | some _ => none

def openElement (name : String) (entries : Entries) : Option Entries :=
  match entries.lookup name with
  | none => some (entries.put name (.tables [] []))
  | some (.tables last earlier) => some (entries.put name (.tables [] (last :: earlier)))
  | some _ => none

structure Draft where
  entries : Entries
  here : List String

namespace Draft

def empty : Draft := ⟨[], []⟩

def change (f : Entries → Option Entries) (path here : List String) (d : Draft) : Option Draft :=
  (reach .implied (fun _ entries => f entries) path .header d.entries).map fun entries =>
    ⟨entries, here⟩

def add (d : Draft) : Statement → Option Draft
  | .assign key value => d.change (assign key value) d.here d.here
  | .table key => d.change (openTable key.name) key.path (key.path ++ [key.name])
  | .element key => d.change (openElement key.name) key.path (key.path ++ [key.name])

end Draft

/-- The table that statements build, if none of them goes against an earlier one. -/
def Entries.ofStatements? (statements : List Statement) : Option Entries :=
  (statements.foldlM Draft.add Draft.empty).map Draft.entries

end Toml

end PrefixCalculus
