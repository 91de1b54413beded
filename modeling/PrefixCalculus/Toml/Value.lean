set_option autoImplicit false

/-!
Values of a TOML document. A table remembers how it came to be, because that decides what may still
be added to it. A number that is too large for any reading is kept as such: it spoils the document
only if something reads it.
-/

namespace PrefixCalculus

namespace Toml

inductive Origin
  /-- By a header of its own, or as the document itself. -/
  | header
  /-- On the way to a table with a header. -/
  | implied
  /-- On the way to a dotted key. -/
  | dotted
  /-- Between braces; nothing is ever added to it. -/
  | inline
  deriving DecidableEq

inductive Value
  | text (s : String)
  | integer (n : Int)
  | float (x : Float)
  | tooLarge
  | boolean (b : Bool)
  /-- A date, a time or both. -/
  | moment
  | array (items : List Value)
  /-- The tables under one doubled header: the last one, and the others from its end. -/
  | tables (last : List (String × Value)) (earlier : List (List (String × Value)))
  | table (origin : Origin) (entries : List (String × Value))
  deriving Inhabited

/-- The entries of a table, in the order in which their keys came up. -/
abbrev Entries := List (String × Value)

mutual

def Value.readable : Value → Bool
  | .tooLarge => false
  | .array items => allReadable items
  | .tables last earlier => entriesReadable last && tablesReadable earlier
  | .table _ entries => entriesReadable entries
  | _ => true

def allReadable : List Value → Bool
  | [] => true
  | v :: vs => v.readable && allReadable vs

def entriesReadable : List (String × Value) → Bool
  | [] => true
  | (_, v) :: es => v.readable && entriesReadable es

def tablesReadable : List (List (String × Value)) → Bool
  | [] => true
  | es :: ts => entriesReadable es && tablesReadable ts

end

def Value.ofInteger (n : Int) : Value :=
  if -(Nat.pow 2 127 : Nat) ≤ n ∧ n < (Nat.pow 2 128 : Nat) then .integer n else .tooLarge

/-- A number with a fraction or an exponent; one that is too large would be infinite. -/
def Value.ofDecimal (x : Float) : Value :=
  if x.isInf then .tooLarge else .float x

/-! A record is read from a table by the names of its fields, from an array by their places. -/

namespace Value

/-- Is the value a record with fields of these names? What has other names is passed over, but its
numbers are read. A moment is a record without any field. -/
def isRecord (names : List String) : Value → Bool
  | table _ entries => entriesReadable (entries.filter fun e => !names.contains e.1)
  | array _ | tables _ _ | moment => true
  | _ => false

def field? (name : String) (place : Nat) : Value → Option Value
  | table _ entries => entries.lookup name
  | array items => items[place]?
  | tables last earlier => ((last :: earlier).reverse[place]?).map (table .header)
  | _ => none

/-- The value as a double; a whole number may stand for one if 64 bits hold it. -/
def toFloat? : Value → Option Float
  | float x => some x
  | integer n => if Int64.minValue.toInt ≤ n ∧ n < UInt64.size then some (Float.ofInt n) else none
  | _ => none

def toNat? (bound : Nat) : Value → Option Nat
  | integer n => if 0 ≤ n ∧ n < bound then some n.toNat else none
  | _ => none

theorem toNat?_integer (n bound : Nat) (h : n < bound) : (integer n).toNat? bound = some n := by
  simp [toNat?, h]

end Value

end Toml

end PrefixCalculus
