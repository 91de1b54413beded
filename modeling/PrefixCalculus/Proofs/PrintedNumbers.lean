import PrefixCalculus.Proofs.Numerals
import PrefixCalculus.Proofs.ShortestDigits
set_option autoImplicit false

/-!
Printed numbers read back. The digits of a decimal, with or without an exponent, are read as a double
that the decimal rounds to, whichever it is. Main statements: the text of a finite double in an
expression reads back as the double, and the text of any double falls into its tokens, a sign before
the digits or before a name.
-/

namespace PrefixCalculus

namespace Decimal

theorem ofDigits_eq (ds : List Char) : ofDigits ds = Nat.ofDigitChars 10 ds 0 := rfl

theorem ofDigits_digits (n : ℕ) : ofDigits (digits n) = n :=
  Nat.ofDigitChars_ten_toDigits

theorem ofDigits_append_zeros (ds : List Char) (k : ℕ) :
    ofDigits (ds ++ List.replicate k '0') = ofDigits ds * 10 ^ k := by
  rw [ofDigits_eq, Nat.ofDigitChars_append, Nat.ofDigitChars_replicate_zero, ← ofDigits_eq,
    Nat.mul_comm]

theorem ofDigits_zeros_append (ds : List Char) (k : ℕ) :
    ofDigits (List.replicate k '0' ++ ds) = ofDigits ds := by
  rw [ofDigits_eq, Nat.ofDigitChars_append, Nat.ofDigitChars_replicate_zero, Nat.mul_zero,
    ← ofDigits_eq]

/-! What a whole text is read as -/

section

variable {ds : List Char} (hds : ∀ c ∈ ds, isDigit c = true)
include hds

theorem spanDigits_all : spanDigits ds = (ds, []) := by
  have hspan : spanDigits (ds ++ []) = (ds, []) := spanDigits_of_all hds (by simp)
  rwa [List.append_nil] at hspan

theorem spanDigits_before {c : Char} {cs : List Char} (hc : isDigit c = false) :
    spanDigits (ds ++ c :: cs) = (ds, c :: cs) :=
  spanDigits_of_all hds (by rintro d ⟨⟩; exact hc)

end

section

variable {ds fs es : List Char} (hne : ds ≠ []) (hds : ∀ c ∈ ds, isDigit c = true)
include hne hds

theorem ofUnsigned?_whole : ofUnsigned? ds = some (toFloat ds [] 0) := by
  simp [ofUnsigned?, spanDigits_all hds, hne]

theorem ofUnsigned?_exponent {i : ℤ} (he : takeExponent? ('e' :: es) = some (i, [])) :
    ofUnsigned? (ds ++ 'e' :: es) = some (toFloat ds [] i) := by
  have hspan : spanDigits (ds ++ 'e' :: es) = _ := spanDigits_before hds (by decide)
  simp [ofUnsigned?, hspan, hne, he]

variable (hfs : ∀ c ∈ fs, isDigit c = true)
include hfs

theorem ofUnsigned?_fraction : ofUnsigned? (ds ++ '.' :: fs) = some (toFloat ds fs 0) := by
  have hspan : spanDigits (ds ++ '.' :: fs) = _ := spanDigits_before hds (by decide)
  simp [ofUnsigned?, hspan, spanDigits_all hfs, hne]

theorem ofUnsigned?_fraction_exponent {i : ℤ} (he : takeExponent? ('e' :: es) = some (i, [])) :
    ofUnsigned? (ds ++ '.' :: (fs ++ 'e' :: es)) = some (toFloat ds fs i) := by
  have hspan : spanDigits (ds ++ '.' :: (fs ++ 'e' :: es)) = _ :=
    spanDigits_before hds (by decide)
  have hspan' : spanDigits (fs ++ 'e' :: es) = _ := spanDigits_before hfs (by decide)
  simp [ofUnsigned?, hspan, hspan', hne, he]

end

theorem takeExponent?_toString (i : ℤ) :
    takeExponent? ('e' :: (toString i).toList) = some (i, []) := by
  have hspan (n : ℕ) : spanDigits (digits n) = (digits n, []) :=
    spanDigits_all fun _ hc => isDigit_of_mem_digits hc
  have hsome (n : ℕ) : (digits n).isEmpty = false := by simpa using digits_ne_nil n
  cases i with
  | ofNat n =>
    have htext : (toString (Int.ofNat n)).toList = digits n := by
      change n.repr.toList = _
      rw [Nat.repr_eq_ofList_toDigits, String.toList_ofList]
      rfl
    rw [htext]
    simp [takeExponent?, takeSign_digits, hspan, hsome, ofDigits_digits]
  | negSucc n =>
    have htext : (toString (Int.negSucc n)).toList = '-' :: digits (n + 1) := by
      change ("-" ++ (n + 1).repr).toList = _
      simp only [String.toList_append, Nat.repr_eq_ofList_toDigits, String.toList_ofList]
      rfl
    rw [htext]
    simp [takeExponent?, takeSign, hspan, hsome, ofDigits_digits, Int.negSucc_eq]

/-! The digits of all places -/

theorem ofDigits_parts (d : Decimal) :
    ofDigits (d.wholePart ++ d.fractionPart) = d.mantissa * 10 ^ d.exponent.toNat := by
  have hspread : ofDigits d.spread = d.mantissa * 10 ^ d.exponent.toNat := by
    rw [spread, ofDigits_append_zeros, ofDigits_digits]
  rw [← hspread, wholePart, fractionPart]
  by_cases hlt : d.places < d.spread.length
  · rw [if_pos hlt, Nat.sub_eq_zero_of_le hlt.le, List.replicate_zero, List.nil_append,
      List.take_append_drop]
  · rw [if_neg hlt, Nat.sub_eq_zero_of_le (Nat.le_of_not_lt hlt), List.drop_zero, ← List.append_assoc]
    exact ofDigits_zeros_append d.spread (_ + 1)

theorem value_parts (d : Decimal) : (ofDigits (d.wholePart ++ d.fractionPart) : ℚ)
    * 10 ^ (0 - Int.ofNat d.fractionPart.length) = d.value := by
  have hexponent : (d.exponent.toNat : ℤ) + (0 - Int.ofNat d.places) = d.exponent := by
    change (d.exponent.toNat : ℤ) + (0 - ((-d.exponent).toNat : ℤ)) = d.exponent
    omega
  rw [ofDigits_parts, length_fractionPart, Nat.cast_mul, mul_assoc, Nat.cast_pow, Nat.cast_ofNat,
    ← zpow_natCast, ← zpow_add₀ (by norm_num), hexponent, value]

/-! Decimals near a double -/

section

variable {x : Float} {m : ℕ} {e : ℤ} (hx : Double.IsPositive x m e)
include hx

theorem toFloat_eq {whole fraction : List Char} {exponent : ℤ}
    (near : Double.RoundsTo m e
      (ofDigits (whole ++ fraction) * 10 ^ (exponent - Int.ofNat fraction.length))) :
    toFloat whole fraction exponent = x := by
  simp only [toFloat]
  generalize exponent - Int.ofNat fraction.length = k at near
  by_cases hk : k < 0
  · rw [if_pos hk]
    refine hx.ofScientific_true (by omega) ?_
    have hvalue (n : ℕ) : (n : ℚ) / 10 ^ (-k).toNat = n * 10 ^ k := by
      rw [← zpow_natCast, div_eq_mul_inv, ← zpow_neg]
      congr 2
      omega
    exact (hvalue _).symm ▸ near
  · rw [if_neg hk]
    refine hx.ofScientific_false ?_
    have hvalue (n : ℕ) : (n : ℚ) * 10 ^ k.toNat = n * 10 ^ k := by
      rw [← zpow_natCast]
      congr 2
      omega
    exact (hvalue _).symm ▸ near

variable {d : Decimal} (near : Double.RoundsTo m e d.value)
include near

theorem toFloat_parts : toFloat d.wholePart d.fractionPart 0 = x :=
  toFloat_eq hx ((value_parts d).symm ▸ near)

theorem ofUnsigned?_positional : ofUnsigned? d.positional = some x := by
  rw [positional_eq]
  by_cases hfraction : d.fractionPart = []
  · have hfloat := toFloat_parts hx near
    rw [hfraction] at hfloat
    rw [if_pos hfraction, List.append_nil,
      ofUnsigned?_whole wholePart_ne_nil (fun _ => isDigit_of_mem_wholePart), hfloat]
  · rw [if_neg hfraction, ofUnsigned?_fraction wholePart_ne_nil (fun _ => isDigit_of_mem_wholePart)
      (fun _ => isDigit_of_mem_fractionPart), toFloat_parts hx near]

theorem ofUnsigned?_scientific : ofUnsigned? d.scientific = some x := by
  have hdigits : ∀ c ∈ digits d.mantissa, isDigit c = true := fun c hc => isDigit_of_mem_digits hc
  have hne := digits_ne_nil d.mantissa
  have hpos : 0 < (digits d.mantissa).length := List.length_pos_of_ne_nil hne
  have hfirst : (digits d.mantissa).take 1 ≠ [] := by simp [hne]
  have hfirsts : ∀ c ∈ (digits d.mantissa).take 1, isDigit c = true :=
    fun c hc => hdigits c (List.mem_of_mem_take hc)
  have hbehind : ∀ c ∈ (digits d.mantissa).drop 1, isDigit c = true :=
    fun c hc => hdigits c (List.mem_of_mem_drop hc)
  have hexponent := takeExponent?_toString (d.exponent + Int.ofNat (digits d.mantissa).length - 1)
  have hshift : d.exponent + Int.ofNat (digits d.mantissa).length - 1
      - Int.ofNat ((digits d.mantissa).drop 1).length = d.exponent := by
    rw [List.length_drop]
    change d.exponent + ((digits d.mantissa).length : ℤ) - 1
      - ((digits d.mantissa).length - 1 : ℕ) = _
    omega
  have hfloat : toFloat ((digits d.mantissa).take 1) ((digits d.mantissa).drop 1)
      (d.exponent + Int.ofNat (digits d.mantissa).length - 1) = x := by
    refine toFloat_eq hx ?_
    rw [hshift, List.take_append_drop, ofDigits_digits]
    exact near
  unfold scientific
  simp only
  by_cases hfraction : ((digits d.mantissa).drop 1).isEmpty = true
  · rw [List.isEmpty_iff] at hfraction
    rw [hfraction] at hfloat ⊢
    rw [List.isEmpty_nil, if_pos rfl, List.append_nil,
      ofUnsigned?_exponent hfirst hfirsts hexponent, hfloat]
  · rw [if_neg hfraction, List.append_assoc, List.cons_append,
      ofUnsigned?_fraction_exponent hfirst hfirsts hbehind hexponent, hfloat]

end

end Decimal

/-! Texts of doubles -/

theorem Double.eq_zero_of_parts {x : Float} {p : FloatParts} (h : FloatParts.ofFloat? x = some p)
    (hsign : p.negative = false) (hm : p.mantissa = 0) : x = 0.0 := by
  obtain ⟨s, e, m, hx⟩ := Double.exists_fields x
  rw [Double.ofFloat?_eq hx] at h
  split at h
  · cases h
  · split at h
    next hzero =>
      cases h
      cases s with
      | negative => cases hsign
      | positive =>
        have hunpacks := hx.unpacks.unique
          (.zero (BitVec.eq_of_toNat_eq hzero) (BitVec.eq_of_toNat_eq hm))
        exact Double.eq_of_unpack (hunpacks.trans Double.unpack_zero.symm)
    · cases h
      dsimp only at hm
      omega

section

variable {x : Float} (hnan : x.isNaN = false) (hinf : x.isInf = false)
include hnan hinf

theorem ofUnsigned?_expressionNumber (hsign : signBit x = false) :
    Decimal.ofUnsigned? (expressionNumber x).toList = some x := by
  obtain ⟨p, hp, hneg⟩ := Double.exists_parts hnan hinf
  rw [hsign] at hneg
  by_cases hm : p.mantissa = 0
  · rw [Double.eq_zero_of_parts hp hneg hm]
    decide +kernel
  · have hx := Double.isPositive_of_parts hp hneg hm
    have near := Decimal.roundsTo_shortest hx.pos hx.canonical
    unfold expressionNumber scientificText positionalText
    simp only [numberText_of_parts hp, hneg, hm, Bool.false_eq_true, if_false]
    split
    · rw [String.toList_ofList]
      exact Decimal.ofUnsigned?_scientific hx near
    · rw [String.toList_ofList]
      exact Decimal.ofUnsigned?_positional hx near

/-- **The text of a finite double reads back as the double**, bit for bit, with or without an
exponent. -/
theorem ofText?_expressionNumber : Decimal.ofText? (expressionNumber x) = some x := by
  cases hsign : signBit x with
  | false =>
    rw [ofText?_expressionNumber_unsigned hnan hinf hsign, ofUnsigned?_expressionNumber hnan hinf hsign]
  | true =>
    obtain ⟨y, rfl⟩ : ∃ y, x = -y := ⟨-x, (Double.neg_neg x).symm⟩
    rw [Double.isNaN_neg] at hnan
    rw [Double.isInf_neg] at hinf
    rw [Double.signBit_neg hnan, Bool.not_eq_true'] at hsign
    rw [ofText?_expressionNumber_neg hnan hinf hsign, ofUnsigned?_expressionNumber hnan hinf hsign]
    rfl

end

namespace Token

def ofUnsigned (x : Float) : Token :=
  if x.isNaN then .name "nan" else if x.isInf then .name "inf" else .number x

def ofNumber (x : Float) : List Token :=
  if signBit x then [.sign .sub, ofUnsigned (-x)] else [ofUnsigned x]

theorem lexes_minus {cs : List Char} {ts : List Token} (h : Lexes cs ts) :
    Lexes ('-' :: cs) (.sign .sub :: ts) := by
  have hs : scan? ('-' :: cs) = some ⟨.sign .sub, cs, cs⟩ := rfl
  exact .token hs h

theorem lexes_expressionNumber (x : Float) :
    Lexes (expressionNumber x).toList (ofNumber x) := by
  cases x using Double.sign_cases with
  | nan =>
    have htext : expressionNumber nan = "nan" := by decide
    have htokens : ofNumber nan = [.name "nan"] := by decide
    rw [htext, htokens]
    exact lexes_name (by decide)
  | infinity =>
    have htext : expressionNumber infinity = "inf" := by decide
    have htokens : ofNumber infinity = [.name "inf"] := by decide
    rw [htext, htokens]
    exact lexes_name (by decide)
  | negInfinity =>
    have htext : expressionNumber (-infinity) = "-inf" := by decide
    have htokens : ofNumber (-infinity) = [.sign .sub, .name "inf"] := by decide
    have hchars : "-inf".toList = '-' :: "inf".toList := by decide
    rw [htext, htokens, hchars]
    exact lexes_minus (lexes_name (by decide))
  | unsigned x hnan hinf hsign =>
    have htokens : ofNumber x = [.number x] := by
      simp only [ofNumber, ofUnsigned, hsign, hnan, hinf, Bool.false_eq_true, if_false]
    rw [htokens]
    exact (isNumeral_expressionNumber hnan hinf hsign).lexes
      (ofUnsigned?_expressionNumber hnan hinf hsign)
  | signed x hnan hinf hsign =>
    have htokens : ofNumber (-x) = [.sign .sub, .number x] := by
      simp only [ofNumber, ofUnsigned, Double.signBit_neg hnan, hsign, Double.neg_neg, hnan, hinf,
        Bool.not_false, if_true, Bool.false_eq_true, if_false]
    rw [toList_expressionNumber_neg hnan hinf hsign, htokens]
    exact lexes_minus ((isNumeral_expressionNumber hnan hinf hsign).lexes
      (ofUnsigned?_expressionNumber hnan hinf hsign))

end Token

end PrefixCalculus
