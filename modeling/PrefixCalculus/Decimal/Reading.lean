import PrefixCalculus.Numeric.Parts
set_option autoImplicit false

/-!
Decimal text as a double, correctly rounded.
-/

namespace PrefixCalculus

namespace Decimal

def isDigit (c : Char) : Bool :=
  '0' ≤ c && c ≤ '9'

def ofDigits (ds : List Char) : Nat :=
  ds.foldl (fun acc c => 10 * acc + (c.toNat - '0'.toNat)) 0

/-- The double nearest to `whole.fraction * 10 ^ exponent`. -/
def toFloat (whole fraction : List Char) (exponent : Int) : Float :=
  let mantissa := ofDigits (whole ++ fraction)
  let exponent := exponent - Int.ofNat fraction.length
  if exponent < 0 then Float.ofScientific mantissa true (-exponent).toNat
  else Float.ofScientific mantissa false exponent.toNat

def spanDigits (cs : List Char) : List Char × List Char :=
  cs.span isDigit

def takeSign : List Char → Bool × List Char
  | '-' :: cs => (true, cs)
  | '+' :: cs => (false, cs)
  | cs => (false, cs)

def takeExponent? : List Char → Option (Int × List Char)
  | [] => none
  | c :: cs =>
    if c = 'e' || c = 'E' then
      let (negative, cs) := takeSign cs
      let (ds, rest) := spanDigits cs
      if ds.isEmpty then none
      else
        let size := Int.ofNat (ofDigits ds)
        some (if negative then -size else size, rest)
    else none

def takeFraction? : List Char → Option (List Char × List Char)
  | '.' :: cs =>
    let (ds, rest) := spanDigits cs
    if ds.isEmpty then none else some (ds, rest)
  | _ => none

/-- Digits with a point anywhere among them and an optional exponent, as the whole text. -/
def ofUnsigned? (cs : List Char) : Option Float :=
  let (whole, rest) := spanDigits cs
  let (fraction, rest) :=
    match rest with
    | '.' :: rest => spanDigits rest
    | _ => ([], rest)
  if whole.isEmpty && fraction.isEmpty then none
  else
    match rest with
    | [] => some (toFloat whole fraction 0)
    | _ =>
      match takeExponent? rest with
      | some (exponent, []) => some (toFloat whole fraction exponent)
      | _ => none

def ofText? (text : String) : Option Float :=
  let (negative, cs) := takeSign text.toList
  let word := String.ofList (cs.map Char.toLower)
  let size? :=
    if word == "inf" || word == "infinity" then some infinity
    else if word == "nan" then some nan
    else ofUnsigned? cs
  size?.map fun size => if negative then -size else size

end Decimal

end PrefixCalculus
