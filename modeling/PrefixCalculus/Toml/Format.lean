import PrefixCalculus.Decimal.Reading
import PrefixCalculus.Decimal.Text
set_option autoImplicit false

/-!
Documents of sections with fields, and formats to write them in. A format writes documents, reads texts
into values of its own, and fills records from these; a record names its fields and has a default.
-/

namespace PrefixCalculus

namespace Toml

inductive Scalar
  | integer (n : Nat)
  | float (x : Float)
  deriving DecidableEq

/-- A double without an exponent; a whole one keeps a fraction, so that it reads back as a double. -/
def floatText (x : Float) : String :=
  let text := positionalText x
  if x.isNaN || x.isInf || text.toList.contains '.' then text else text ++ ".0"

def Scalar.text : Scalar → String
  | integer n => toString n
  | float x => floatText x

def Scalar.fits : Scalar → Bool
  | integer n => n ≤ Int64.maxValue.toInt
  | float _ => true

structure Section where
  name : String
  fields : List (String × Scalar)

def isBare (c : Char) : Bool :=
  ('a' ≤ c && c ≤ 'z') || ('A' ≤ c && c ≤ 'Z') || Decimal.isDigit c || c == '_' || c == '-'

structure RecordField (V α : Type) where
  name : String
  read : V → α → Option α

structure Format where
  Value : Type
  write? : List Section → Option String
  parse? : String → Option Value
  /-- The names and values of a table. -/
  entries? : Value → Option (List (String × Value))
  float? : Value → Option Float
  /-- A whole number below a bound. -/
  whole? : Nat → Value → Option Nat
  /-- A record from its default and its fields. -/
  record? : {α : Type} → α → List (RecordField Value α) → Value → Option α

end Toml

end PrefixCalculus
