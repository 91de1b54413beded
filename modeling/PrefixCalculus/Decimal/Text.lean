import PrefixCalculus.Decimal.Rounding
set_option autoImplicit false

/-!
Doubles as text: scientific with the fewest digits or with a fixed number of them, and positional.
An exponent has no plus sign and no leading zeros; a zero keeps its sign.
-/

namespace PrefixCalculus

namespace Decimal

def digits (n : Nat) : List Char :=
  Nat.toDigits 10 n

/-- One digit before the point, the others after it; no point if there are none. -/
def scientific (d : Decimal) : List Char :=
  let ds := digits d.mantissa
  let exponent := d.exponent + Int.ofNat ds.length - 1
  let fraction := ds.drop 1
  ds.take 1 ++ (if fraction.isEmpty then [] else '.' :: fraction)
    ++ 'e' :: (toString exponent).toList

def positional (d : Decimal) : List Char :=
  let ds := digits d.mantissa
  let places := (-d.exponent).toNat
  if places = 0 then ds ++ List.replicate d.exponent.toNat '0'
  else if places < ds.length then ds.take (ds.length - places) ++ '.' :: ds.drop (ds.length - places)
  else '0' :: '.' :: List.replicate (places - ds.length) '0' ++ ds

end Decimal

def numberText (zero : String) (digits : FloatParts → List Char) (x : Float) : String :=
  match FloatParts.ofFloat? x with
  | none => if x.isNaN then "nan" else if x < 0.0 then "-inf" else "inf"
  | some p =>
    let text := if p.mantissa = 0 then zero else String.ofList (digits p)
    if p.negative then "-" ++ text else text

def scientificText : Float → String :=
  numberText "0e0" fun p => (Decimal.shortest p).scientific

def positionalText : Float → String :=
  numberText "0" fun p => (Decimal.shortest p).positional

def significantText (count : Nat) : Float → String :=
  numberText ("0." ++ String.ofList (List.replicate (count - 1) '0') ++ "e0")
    fun p => (Decimal.significant count p).scientific

end PrefixCalculus
