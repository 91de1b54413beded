import PrefixCalculus.Expression.Printing
import PrefixCalculus.Proofs.Doubles
import PrefixCalculus.Proofs.Scanning
set_option autoImplicit false

/-!
Printed numbers as numerals. Main statements: a numeral that is read as a whole is one token, and the
text of a number without a sign is a numeral.
-/

namespace PrefixCalculus

/-- Digits, perhaps a fraction with digits, and what goes on with neither. -/
inductive IsNumeral : List Char → Prop
  | whole {ds rest : List Char} (hne : ds ≠ []) (hds : ∀ c ∈ ds, Decimal.isDigit c = true)
      (hrest : ∀ c, rest.head? = some c → Decimal.isDigit c = false ∧ c ≠ '.') :
      IsNumeral (ds ++ rest)
  | fraction {ds fs rest : List Char} (hne : ds ≠ []) (hds : ∀ c ∈ ds, Decimal.isDigit c = true)
      (hfne : fs ≠ []) (hfs : ∀ c ∈ fs, Decimal.isDigit c = true)
      (hrest : ∀ c, rest.head? = some c → Decimal.isDigit c = false) :
      IsNumeral (ds ++ '.' :: (fs ++ rest))

theorem span_of_all {p : Char → Bool} {ds rest : List Char} (hds : ∀ c ∈ ds, p c = true)
    (hrest : ∀ c, rest.head? = some c → p c = false) : (ds ++ rest).span p = (ds, rest) := by
  have htake : rest.takeWhile p = [] := by
    cases rest with
    | nil => rfl
    | cons c rest => simp [hrest c rfl]
  have hdrop : rest.dropWhile p = rest := by
    cases rest with
    | nil => rfl
    | cons c rest => simp [hrest c rfl]
  rw [List.span_eq_takeWhile_dropWhile, List.takeWhile_append_of_pos hds,
    List.dropWhile_append_of_pos hds, htake, hdrop, List.append_nil]

namespace Decimal

theorem spanDigits_of_all {ds rest : List Char} (hds : ∀ c ∈ ds, isDigit c = true)
    (hrest : ∀ c, rest.head? = some c → isDigit c = false) :
    spanDigits (ds ++ rest) = (ds, rest) :=
  span_of_all hds hrest

theorem isDigit_of_mem_digits {c : Char} {n : Nat} (h : c ∈ digits n) : isDigit c = true := by
  have hc := Nat.isDigit_of_mem_toDigits (by decide) (by decide) h
  rw [Char.isDigit, Bool.and_eq_true, decide_eq_true_eq, decide_eq_true_eq] at hc
  exact Token.isDigit_iff.2 ⟨UInt32.le_iff_toNat_le.1 hc.1, UInt32.le_iff_toNat_le.1 hc.2⟩

theorem digits_ne_nil (n : Nat) : digits n ≠ [] :=
  Nat.toDigits_ne_nil

theorem isDigit_of_mem_zeros {n : Nat} {c : Char} (h : c ∈ List.replicate n '0') :
    isDigit c = true := by
  rw [List.eq_of_mem_replicate h]
  decide

theorem takeSign_of_isDigit {c : Char} (hc : isDigit c = true) (cs : List Char) :
    takeSign (c :: cs) = (false, c :: cs) := by
  have hminus : c ≠ '-' := by rintro rfl; cases hc
  have hplus : c ≠ '+' := by rintro rfl; cases hc
  simp [takeSign, hminus, hplus]

theorem takeSign_digits (n : Nat) : takeSign (digits n) = (false, digits n) := by
  obtain ⟨c, cs, hcs⟩ := List.exists_cons_of_ne_nil (digits_ne_nil n)
  have hc : isDigit c = true := isDigit_of_mem_digits (n := n) (by rw [hcs]; simp)
  rw [hcs, takeSign_of_isDigit hc]

/-! The places before the point and behind it -/

def places (d : Decimal) : Nat :=
  (-d.exponent).toNat

def spread (d : Decimal) : List Char :=
  digits d.mantissa ++ List.replicate d.exponent.toNat '0'

def wholePart (d : Decimal) : List Char :=
  if d.places < d.spread.length then d.spread.take (d.spread.length - d.places) else ['0']

def fractionPart (d : Decimal) : List Char :=
  List.replicate (d.places - d.spread.length) '0' ++ d.spread.drop (d.spread.length - d.places)

section

variable {d : Decimal}

theorem length_spread_pos : 0 < d.spread.length := by
  have hpos : 0 < (digits d.mantissa).length := List.length_pos_of_ne_nil (digits_ne_nil _)
  rw [spread, List.length_append]
  omega

theorem wholePart_ne_nil : d.wholePart ≠ [] := by
  have hpos := d.length_spread_pos
  unfold wholePart
  split
  · rw [ne_eq, List.take_eq_nil_iff, ← List.length_eq_zero_iff]
    omega
  · exact List.cons_ne_nil _ _

theorem length_fractionPart : d.fractionPart.length = d.places := by
  rw [fractionPart, List.length_append, List.length_replicate, List.length_drop]
  omega

theorem positional_eq : d.positional
    = d.wholePart ++ if d.fractionPart = [] then [] else '.' :: d.fractionPart := by
  have hfraction : d.fractionPart = [] ↔ d.places = 0 := by
    rw [← List.length_eq_zero_iff, length_fractionPart]
  have hplaces : (-d.exponent).toNat = d.places := rfl
  simp only [hfraction, positional, hplaces]
  by_cases hzero : d.places = 0
  · have hpos : d.places < d.spread.length := hzero ▸ length_spread_pos
    rw [if_pos hzero, if_pos hzero, wholePart, if_pos hpos, hzero, Nat.sub_zero, List.take_length,
      List.append_nil]
    rfl
  · have hspread : d.spread = digits d.mantissa := by
      have hexponent : d.exponent.toNat = 0 := by
        unfold places at hzero
        omega
      rw [spread, hexponent, List.replicate_zero, List.append_nil]
    rw [if_neg hzero, if_neg hzero, wholePart, fractionPart, hspread]
    by_cases hlt : d.places < (digits d.mantissa).length
    · rw [if_pos hlt, if_pos hlt, Nat.sub_eq_zero_of_le hlt.le]
      rfl
    · rw [if_neg hlt, if_neg hlt, Nat.sub_eq_zero_of_le (Nat.le_of_not_lt hlt)]
      rfl

theorem isDigit_of_mem_spread {c : Char} (h : c ∈ d.spread) : isDigit c = true :=
  (List.mem_append.1 h).elim isDigit_of_mem_digits isDigit_of_mem_zeros

theorem isDigit_of_mem_wholePart {c : Char} (h : c ∈ d.wholePart) : isDigit c = true := by
  unfold wholePart at h
  split at h
  · exact isDigit_of_mem_spread (List.mem_of_mem_take h)
  · exact isDigit_of_mem_zeros (n := 1) h

theorem isDigit_of_mem_fractionPart {c : Char} (h : c ∈ d.fractionPart) : isDigit c = true :=
  (List.mem_append.1 h).elim isDigit_of_mem_zeros fun h =>
    isDigit_of_mem_spread (List.mem_of_mem_drop h)

theorem isNumeral_positional : IsNumeral d.positional := by
  rw [positional_eq]
  by_cases hfraction : d.fractionPart = []
  · rw [if_pos hfraction]
    exact .whole wholePart_ne_nil (fun _ => isDigit_of_mem_wholePart) (by simp)
  · have h := @IsNumeral.fraction d.wholePart d.fractionPart [] wholePart_ne_nil
      (fun _ => isDigit_of_mem_wholePart) hfraction (fun _ => isDigit_of_mem_fractionPart) (by simp)
    rwa [if_neg hfraction, ← List.append_nil d.fractionPart]

end

theorem isNumeral_scientific (d : Decimal) : IsNumeral d.scientific := by
  have hdigits : ∀ c ∈ digits d.mantissa, isDigit c = true := fun c hc => isDigit_of_mem_digits hc
  have hfirst : (digits d.mantissa).take 1 ≠ [] := by simp [digits_ne_nil]
  have hfirsts : ∀ c ∈ (digits d.mantissa).take 1, isDigit c = true :=
    fun c hc => hdigits c (List.mem_of_mem_take hc)
  unfold scientific
  simp only
  by_cases hfraction : ((digits d.mantissa).drop 1).isEmpty = true
  · rw [if_pos hfraction, List.append_nil]
    refine .whole hfirst hfirsts ?_
    rintro c ⟨⟩
    decide
  · rw [if_neg hfraction, List.append_assoc, List.cons_append]
    refine .fraction hfirst hfirsts (by simpa using hfraction)
      (fun c hc => hdigits c (List.mem_of_mem_drop hc)) ?_
    rintro c ⟨⟩
    decide

end Decimal

namespace IsNumeral

theorem head_isDigit {cs : List Char} (h : IsNumeral cs) :
    ∃ c tail, cs = c :: tail ∧ Decimal.isDigit c = true := by
  have hfirst : ∀ {ds tail : List Char}, ds ≠ [] → (∀ c ∈ ds, Decimal.isDigit c = true) →
      ∃ c tail', ds ++ tail = c :: tail' ∧ Decimal.isDigit c = true := by
    intro ds tail hne hds
    cases ds with
    | nil => exact absurd rfl hne
    | cons c ds => exact ⟨c, _, rfl, hds c (by simp)⟩
  cases h with
  | whole hne hds _ => exact hfirst hne hds
  | fraction hne hds _ _ _ => exact hfirst hne hds

open Token in
theorem scanExponent_of_takeExponent? {rest : List Char} {exponent : Int}
    (h : Decimal.takeExponent? rest = some (exponent, [])) :
    scanExponent rest = (exponent, [], []) := by
  simp only [scanExponent, h]

open Token in
/-- A numeral that is read as a whole is one token. -/
theorem scanNumber_eq {cs : List Char} {x : Float} (h : IsNumeral cs)
    (hread : Decimal.ofUnsigned? cs = some x) :
    (scanNumber cs).token = .number x ∧ (scanNumber cs).rest = [] := by
  cases h with
  | @whole ds rest hne hds hrest =>
    have hspan := Decimal.spanDigits_of_all hds fun c hc => (hrest c hc).1
    have hempty : ds.isEmpty = false := by simpa using hne
    rw [Decimal.ofUnsigned?, hspan] at hread
    cases rest with
    | nil =>
      simp only [hempty, Bool.false_and, Bool.false_eq_true, if_false, Option.some.injEq] at hread
      simp only [scanNumber, hspan, scanFraction, scanExponent, Decimal.takeFraction?,
        Decimal.takeExponent?, hread, and_self]
    | cons c rest =>
      have hc := (hrest c rfl).2
      have hfraction : scanFraction (c :: rest) = ([], c :: rest, c :: rest) := by
        simp [scanFraction, Decimal.takeFraction?, hc]
      simp only [hempty, List.cons.injEq, hc, false_and, imp_self, implies_true, List.isEmpty_nil,
        Bool.and_true, Bool.false_eq_true, if_false] at hread
      split at hread
      · rename_i exponent htake
        cases hread
        simp only [scanNumber, hspan, hfraction, scanExponent_of_takeExponent? htake, and_self]
      · cases hread
  | @fraction ds fs rest hne hds hfne hfs hrest =>
    have hspan : Decimal.spanDigits (ds ++ '.' :: (fs ++ rest)) = (ds, '.' :: (fs ++ rest)) := by
      apply Decimal.spanDigits_of_all hds
      rintro c ⟨⟩
      decide
    have hspan' := Decimal.spanDigits_of_all hfs hrest
    have hfraction : scanFraction ('.' :: (fs ++ rest)) = (fs, rest, rest) := by
      simp [scanFraction, Decimal.takeFraction?, hspan', hfne]
    have hempty : ds.isEmpty = false := by simpa using hne
    simp only [Decimal.ofUnsigned?, hspan, hspan', hempty, Bool.false_and, Bool.false_eq_true,
      if_false] at hread
    split at hread
    · cases hread
      simp only [scanNumber, hspan, hfraction, scanExponent, Decimal.takeExponent?, and_self]
    · split at hread
      · rename_i exponent htake
        cases hread
        simp only [scanNumber, hspan, hfraction, scanExponent_of_takeExponent? htake, and_self]
      · cases hread

theorem lexes {cs : List Char} {x : Float} (h : IsNumeral cs)
    (hread : Decimal.ofUnsigned? cs = some x) : Token.Lexes cs [.number x] := by
  obtain ⟨htoken, hrest⟩ := h.scanNumber_eq hread
  obtain ⟨c, tail, rfl, hc⟩ := h.head_isDigit
  have hs : Token.scan? (c :: tail) = some (Token.scanNumber (c :: tail)) := by
    rw [Token.scan?, if_pos hc]
  have hend : Token.Lexes (Token.scanNumber (c :: tail)).rest [] := by
    rw [hrest]
    exact .nil
  rw [← htoken]
  exact .token hs hend

theorem ofText?_eq {cs : List Char} (h : IsNumeral cs) {negative : Bool} {text : String}
    (htext : Decimal.takeSign text.toList = (negative, cs)) :
    Decimal.ofText? text
      = (Decimal.ofUnsigned? cs).map fun size => if negative then -size else size := by
  have hword : ∀ w : String, (∃ c, w.toList.head? = some c ∧ 57 < c.toNat) →
      (String.ofList (cs.map Char.toLower) == w) = false := by
    rintro w ⟨d, hw, hd⟩
    obtain ⟨c, tail, rfl, hc⟩ := h.head_isDigit
    rw [Token.isDigit_iff] at hc
    have hlower : c.toLower = c := by
      rw [Char.toLower, dif_neg]
      rintro ⟨hge, -⟩
      have := UInt32.le_iff_toNat_le.1 hge
      change 65 ≤ c.toNat at this
      omega
    rw [beq_eq_false_iff_ne]
    rintro rfl
    simp only [List.map_cons, hlower, String.toList_ofList, List.head?_cons, Option.some.injEq] at hw
    subst hw
    omega
  simp only [Decimal.ofText?, htext, hword "inf" ⟨'i', rfl, by decide⟩,
    hword "infinity" ⟨'i', rfl, by decide⟩, hword "nan" ⟨'n', rfl, by decide⟩, Bool.or_self,
    Bool.false_eq_true, if_false]

end IsNumeral

/-! Printed numbers -/

theorem numberText_of_parts {zero : String} {digits : FloatParts → List Char} {x : Float}
    {p : FloatParts} (hp : FloatParts.ofFloat? x = some p) :
    numberText zero digits x
      = let text := if p.mantissa = 0 then zero else String.ofList (digits p)
        if p.negative then "-" ++ text else text := by
  rw [numberText, hp]

section

variable {x : Float} (hnan : x.isNaN = false) (hinf : x.isInf = false) (hsign : signBit x = false)
include hnan hinf hsign

theorem isNumeral_expressionNumber : IsNumeral (expressionNumber x).toList := by
  obtain ⟨p, hp, hneg⟩ := Double.exists_parts hnan hinf
  rw [hsign] at hneg
  unfold expressionNumber scientificText positionalText
  rw [numberText_of_parts hp, numberText_of_parts hp, hneg]
  simp only [Bool.false_eq_true, if_false]
  by_cases hzero : p.mantissa = 0
  · rw [if_pos hzero, if_pos hzero]
    have hdigit : ∀ c ∈ ['0'], Decimal.isDigit c = true := List.forall_mem_singleton.2 rfl
    split
    · exact @IsNumeral.whole ['0'] ['e', '0'] (by simp) hdigit (by rintro c ⟨⟩; decide)
    · exact @IsNumeral.whole ['0'] [] (by simp) hdigit (by simp)
  · rw [if_neg hzero, if_neg hzero]
    split
    · rw [String.toList_ofList]
      exact Decimal.isNumeral_scientific _
    · rw [String.toList_ofList]
      exact Decimal.isNumeral_positional

theorem numberText_neg {zero : String} {digits : FloatParts → List Char}
    (hdigits : ∀ p, digits { p with negative := true } = digits p) :
    numberText zero digits (-x) = "-" ++ numberText zero digits x := by
  obtain ⟨p, hp, hneg⟩ := Double.exists_parts hnan hinf
  rw [hsign] at hneg
  have hp' : FloatParts.ofFloat? (-x) = some { p with negative := true } := by
    rw [Double.ofFloat?_neg, hp]
    simp [hneg]
  simp only [numberText_of_parts hp, numberText_of_parts hp', hneg, hdigits, if_true,
    Bool.false_eq_true, if_false]

theorem positionalText_neg : positionalText (-x) = "-" ++ positionalText x :=
  numberText_neg hnan hinf hsign fun _ => rfl

theorem scientificText_neg : scientificText (-x) = "-" ++ scientificText x :=
  numberText_neg hnan hinf hsign fun _ => rfl

theorem expressionNumber_neg : expressionNumber (-x) = "-" ++ expressionNumber x := by
  simp only [expressionNumber, Double.isNaN_neg, Double.isInf_neg, Double.abs_neg,
    Double.neg_bne_zero, positionalText_neg hnan hinf hsign, scientificText_neg hnan hinf hsign]
  split
  · rfl
  · rfl

theorem toList_expressionNumber_neg :
    (expressionNumber (-x)).toList = '-' :: (expressionNumber x).toList := by
  rw [expressionNumber_neg hnan hinf hsign, String.toList_append]
  rfl

theorem ofText?_expressionNumber_unsigned :
    Decimal.ofText? (expressionNumber x) = Decimal.ofUnsigned? (expressionNumber x).toList := by
  have hnumeral := isNumeral_expressionNumber hnan hinf hsign
  have hsigned :
      Decimal.takeSign (expressionNumber x).toList = (false, (expressionNumber x).toList) := by
    obtain ⟨c, tail, htext, hc⟩ := hnumeral.head_isDigit
    rw [htext, Decimal.takeSign_of_isDigit hc]
  rw [hnumeral.ofText?_eq hsigned]
  simp

theorem ofText?_expressionNumber_neg : Decimal.ofText? (expressionNumber (-x))
    = (Decimal.ofUnsigned? (expressionNumber x).toList).map fun size => -size := by
  have hnumeral := isNumeral_expressionNumber hnan hinf hsign
  have hsigned : Decimal.takeSign (expressionNumber (-x)).toList
      = (true, (expressionNumber x).toList) := by
    rw [toList_expressionNumber_neg hnan hinf hsign]
    rfl
  rw [hnumeral.ofText?_eq hsigned]
  simp

end

end PrefixCalculus
