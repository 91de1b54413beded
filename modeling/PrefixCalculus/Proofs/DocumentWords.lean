import PrefixCalculus.Proofs.WrittenNumbers
import PrefixCalculus.Toml.Reading
set_option autoImplicit false

/-!
The words of a TOML document. A word is read by what it is not: it has no colon, and no minus but in
front, so it is no moment, and a number with a point is no integer. Main statement: a word is read as
what it says.
-/

namespace PrefixCalculus

namespace Toml

structure IsWord (word : List Char) (v : Value) : Prop where
  ne_nil : word ≠ []
  isWordChar : ∀ c ∈ word, isWordChar c = true
  reads : ofWord? word = some v

/-! What is no moment -/

theorem takeDigits?_drop {count n : ℕ} {cs rest : List Char}
    (h : takeDigits? count cs = some (n, rest)) : rest = cs.drop count := by
  simp only [takeDigits?] at h
  split at h
  · cases h
    rfl
  · cases h

theorem expect?_eq_none {c : Char} {cs : List Char} (h : c ∉ cs) : expect? c cs = none := by
  cases cs with
  | nil => rfl
  | cons d cs =>
    have hne : d ≠ c := by
      rintro rfl
      exact h (List.mem_cons_self ..)
    simp [expect?, hne]

theorem isMoment_of_not_mem {cs : List Char} (hminus : '-' ∉ cs) (hcolon : ':' ∉ cs) :
    isMoment cs = false := by
  have hdate : skipDate? cs = none := by
    unfold skipDate?
    cases h : takeDigits? 4 cs with
    | none => rfl
    | some year =>
      have hnone : expect? '-' year.2 = none := by
        rw [takeDigits?_drop h]
        exact expect?_eq_none fun h => hminus (List.mem_of_mem_drop h)
      simp [hnone]
  have htime : skipMinutes? cs = none := by
    unfold skipMinutes?
    cases h : takeDigits? 2 cs with
    | none => rfl
    | some hour =>
      have hnone : expect? ':' hour.2 = none := by
        rw [takeDigits?_drop h]
        exact expect?_eq_none fun h => hcolon (List.mem_of_mem_drop h)
      simp [hnone]
  simp [isMoment, hdate, skipTime?, htime]

theorem isMoment_minus (cs : List Char) : isMoment ('-' :: cs) = false := by
  have hdigits (count : ℕ) : takeDigits? (count + 1) ('-' :: cs) = none := by
    have hminus : Decimal.isDigit '-' = false := by decide
    simp [takeDigits?, hminus]
  simp [isMoment, skipDate?, skipTime?, skipMinutes?, hdigits]

/-! Digits -/

theorem whole?_eq {ds : List Char} (h : Decimal.IsWhole ds) : whole? ds = some ds := by
  have hungroup := ungroup?_of_all Decimal.isDigit rfl ds h.ne_nil (List.all_eq_true.2 h.isDigit)
  rcases h.lead with rfl | ⟨c, cs, rfl, hc⟩
  · rfl
  · simp [whole?, hungroup, hc]

theorem ungroup?_eq_none {isDigit : Char → Bool} {c : Char} (hc : isDigit c = false) (hc' : c ≠ '_')
    {cs : List Char} (h : c ∈ cs) : ungroup? isDigit cs = none := by
  have hne {d : Char} (hd : isDigit d = true) : c ≠ d := by
    rintro rfl
    exact absurd hd (by simp [hc])
  fun_induction ungroup? isDigit cs with
  | case1 => rfl
  | case2 d hd => exact absurd (List.mem_singleton.1 h) (hne hd)
  | case3 d hd cs ih =>
    have hmem := List.mem_of_ne_of_mem hc' (List.mem_of_ne_of_mem (hne hd) h)
    rw [ih hmem, Option.map_none]
  | case4 d hd cs _ _ ih => rw [ih (List.mem_of_ne_of_mem (hne hd) h), Option.map_none]
  | case5 => rfl

theorem spanGrouped_eq {ds rest : List Char} (hds : ∀ c ∈ ds, Decimal.isDigit c = true)
    (hrest : ∀ c, rest.head? = some c → (Decimal.isDigit c || c == '_') = false) :
    spanGrouped (ds ++ rest) = (ds, rest) :=
  span_of_all (fun c hc => by rw [hds c hc, Bool.true_or]) hrest

theorem ne_of_point {cs word : List Char} (h : '.' ∈ cs) (hnone : '.' ∉ word) : cs ≠ word := by
  rintro rfl
  exact hnone h

theorem ofWord?_eq {cs : List Char} (hpoint : '.' ∈ cs) (hmoment : isMoment cs = false)
    (hinteger : integer? cs = none) : ofWord? cs = decimal? cs := by
  have htrue : cs ≠ ['t', 'r', 'u', 'e'] := ne_of_point hpoint (by decide)
  have hfalse : cs ≠ ['f', 'a', 'l', 's', 'e'] := ne_of_point hpoint (by decide)
  rw [ofWord?, if_neg htrue, if_neg hfalse, hmoment, if_neg Bool.false_ne_true, hinteger]

/-! Whole numbers -/

theorem integer?_digits (n : ℕ) : integer? (Decimal.digits n) = some (n : ℤ) := by
  have hnot {c : Char} {cs : List Char} (hc : Decimal.isDigit c = false) :
      Decimal.digits n ≠ '0' :: c :: cs := by
    intro h
    have hmem : c ∈ Decimal.digits n := by simp [h]
    exact absurd (Decimal.isDigit_of_mem_digits hmem) (by simp [hc])
  unfold integer?
  split
  · exact absurd ‹_› (hnot (by decide))
  · exact absurd ‹_› (hnot (by decide))
  · exact absurd ‹_› (hnot (by decide))
  · simp [Decimal.takeSign_digits, whole?_eq (Decimal.isWhole_digits n), Decimal.ofDigits_digits]

theorem isWord_integer {n : ℕ} (hn : n < 2 ^ 128) : IsWord (Decimal.digits n) (.integer n) := by
  have hnot {c : Char} (hc : Decimal.isDigit c = false) : c ∉ Decimal.digits n := fun hmem =>
    absurd (Decimal.isDigit_of_mem_digits hmem) (by simp [hc])
  refine ⟨Decimal.digits_ne_nil n,
    fun c hc => isWordChar_of_isDigit (Decimal.isDigit_of_mem_digits hc), ?_⟩
  have htrue : Decimal.digits n ≠ ['t', 'r', 'u', 'e'] := fun h => by simpa [h] using @hnot 't' rfl
  have hfalse : Decimal.digits n ≠ ['f', 'a', 'l', 's', 'e'] := fun h => by
    simpa [h] using @hnot 'f' rfl
  have hvalue : Value.ofInteger (n : ℤ) = .integer n :=
    if_pos ⟨(Int.neg_nonpos_of_nonneg (Int.natCast_nonneg _)).trans (Int.natCast_nonneg n),
      Int.ofNat_lt.2 hn⟩
  rw [ofWord?, if_neg htrue, if_neg hfalse, isMoment_of_not_mem (hnot (by decide)) (hnot (by decide)),
    if_neg Bool.false_ne_true, integer?_digits]
  simp only [hvalue]

/-! Doubles -/

section

variable {x : Float} {cs : List Char} (h : IsPointed x cs)
include h

theorem mem_of_isPointed : '.' ∈ cs := by
  obtain ⟨-, -, -, -⟩ := h
  simp

theorem not_mem_of_isPointed {c : Char} (hc : Decimal.isDigit c = false) (hc' : c ≠ '.') :
    c ∉ cs := by
  intro hmem
  rcases isDigit_or_of_isPointed h hmem with hdigit | hpoint
  · exact absurd hdigit (by simp [hc])
  · exact hc' hpoint

theorem whole?_of_isPointed : whole? cs = none := by
  rw [whole?, ungroup?_eq_none (by decide) (by decide) (mem_of_isPointed h)]
  rfl

theorem takeSign_of_isPointed : Decimal.takeSign cs = (false, cs) := by
  obtain ⟨hwhole, -, -, -⟩ := h
  obtain ⟨c, ds, hds⟩ := List.exists_cons_of_ne_nil hwhole.ne_nil
  rw [hds]
  exact Decimal.takeSign_of_isDigit (hwhole.isDigit c (hds ▸ List.mem_cons_self ..)) _

theorem integer?_of_isPointed : integer? cs = none := by
  unfold integer?
  split
  · exact absurd (by simp) (not_mem_of_isPointed h (c := 'x') (by decide) (by decide))
  · exact absurd (by simp) (not_mem_of_isPointed h (c := 'o') (by decide) (by decide))
  · exact absurd (by simp) (not_mem_of_isPointed h (c := 'b') (by decide) (by decide))
  · simp only [takeSign_of_isPointed h, whole?_of_isPointed h, Option.map_none]

theorem unsigned?_of_isPointed (hinf : x.isInf = false) : unsigned? cs = some (.float x) := by
  cases h with
  | @intro whole fraction hwhole hne hfraction hx =>
    have hspan : spanGrouped (whole ++ '.' :: fraction) = (whole, '.' :: fraction) :=
      spanGrouped_eq hwhole.isDigit (by rintro c ⟨⟩; decide)
    have hspan' : spanGrouped fraction = (fraction, []) := by
      have h : spanGrouped (fraction ++ []) = (fraction, []) := spanGrouped_eq hfraction (by simp)
      rwa [List.append_nil] at h
    have hungroup := ungroup?_of_all Decimal.isDigit rfl fraction hne (List.all_eq_true.2 hfraction)
    simp [unsigned?, hspan, whole?_eq hwhole, hspan', hungroup, exponent?, hx, Value.ofDecimal, hinf]

theorem decimal?_of_isPointed (hinf : x.isInf = false) (sign : List Char) {negative : Bool}
    (hsign : Decimal.takeSign (sign ++ cs) = (negative, cs)) :
    decimal? (sign ++ cs) = some (.float (if negative then -x else x)) := by
  have hinfinity : cs ≠ ['i', 'n', 'f'] := ne_of_point (mem_of_isPointed h) (by decide)
  have hnan : cs ≠ ['n', 'a', 'n'] := ne_of_point (mem_of_isPointed h) (by decide)
  simp only [decimal?, hsign, if_neg hinfinity, if_neg hnan, unsigned?_of_isPointed h hinf,
    Option.map_some]
  cases negative with
  | false => rfl
  | true => rfl

theorem isWord_of_isPointed (hinf : x.isInf = false) : IsWord cs (.float x) := by
  have hmoment : isMoment cs = false :=
    isMoment_of_not_mem (not_mem_of_isPointed h (by decide) (by decide))
      (not_mem_of_isPointed h (by decide) (by decide))
  have hdecimal := decimal?_of_isPointed h hinf [] (takeSign_of_isPointed h)
  refine ⟨List.ne_nil_of_mem (mem_of_isPointed h), fun c hc => isWordChar_of_isPointed h hc, ?_⟩
  rw [ofWord?_eq (mem_of_isPointed h) hmoment (integer?_of_isPointed h)]
  exact hdecimal

theorem isWord_minus_of_isPointed (hinf : x.isInf = false) : IsWord ('-' :: cs) (.float (-x)) := by
  have hinteger : integer? ('-' :: cs) = none := by
    change (whole? cs).map _ = none
    rw [whole?_of_isPointed h, Option.map_none]
  have hdecimal := decimal?_of_isPointed h hinf ['-'] rfl
  refine ⟨List.cons_ne_nil _ _, List.forall_mem_cons.2 ⟨rfl, fun c hc => ?_⟩, ?_⟩
  · exact isWordChar_of_isPointed h hc
  · rw [ofWord?_eq (List.mem_cons_of_mem _ (mem_of_isPointed h)) (isMoment_minus cs) hinteger]
    exact hdecimal

end

/-! What a word says -/

def Scalar.value : Scalar → Value
  | integer n => .integer n
  | float x => .float x

/-- **A word is read as what it says.** -/
theorem Says.isWord {word : List Char} {x : Scalar} (h : Says word x) : IsWord word x.value := by
  cases h with
  | @integer n hn =>
    have hmax : Int64.maxValue.toInt = 2 ^ 63 - 1 := by decide
    rw [Scalar.fits, hmax, decide_eq_true_eq] at hn
    exact isWord_integer (by omega)
  | nan | negNan | infinity | negInfinity =>
    exact ⟨List.cons_ne_nil _ _, List.all_eq_true.1 rfl, rfl⟩
  | pointed hx hinf => exact isWord_of_isPointed hx hinf
  | negative hx hinf => exact isWord_minus_of_isPointed hx hinf

end Toml

end PrefixCalculus
