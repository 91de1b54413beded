import PrefixCalculus.Proofs.PrintedNumbers
import PrefixCalculus.Toml.Lawful
set_option autoImplicit false

/-!
Numbers as words of a document. A double without an exponent is digits, a point and digits, with a minus
in front if the double has one. Main statement: the words that a value is written with say the value.
-/

namespace PrefixCalculus

namespace Decimal

theorem IsWhole.ne_nil {ds : List Char} (h : IsWhole ds) : ds ≠ [] := by
  rcases h.lead with rfl | ⟨c, cs, rfl, -⟩
  · exact List.cons_ne_nil _ _
  · exact List.cons_ne_nil _ _

theorem head?_digits {n : ℕ} (hn : 0 < n) : (digits n).head? ≠ some '0' := by
  induction n using Nat.strongRecOn with
  | ind n ih =>
    by_cases hlt : n < 10
    · rw [digits, Nat.toDigits_of_lt_base hlt, List.head?_cons, ne_eq, Option.some.injEq]
      interval_cases n <;> decide
    · have hrec : digits n = digits (n / 10) ++ [Nat.digitChar (n % 10)] :=
        Nat.toDigits_of_base_le (by decide) (Nat.le_of_not_lt hlt)
      rw [hrec, List.head?_append_of_ne_nil _ (digits_ne_nil _)]
      exact ih (n / 10) (by omega) (by omega)

theorem isWhole_digits (n : ℕ) : IsWhole (digits n) := by
  refine ⟨fun _ => isDigit_of_mem_digits, ?_⟩
  rcases Nat.eq_zero_or_pos n with rfl | hn
  · exact .inl (by decide)
  · obtain ⟨c, cs, hcs⟩ := List.exists_cons_of_ne_nil (digits_ne_nil n)
    have hhead := head?_digits hn
    rw [hcs, List.head?_cons, ne_eq, Option.some.injEq] at hhead
    exact .inr ⟨c, cs, hcs, hhead⟩

theorem isWhole_wholePart {d : Decimal} (hm : 0 < d.mantissa) : IsWhole d.wholePart := by
  refine ⟨fun _ => isDigit_of_mem_wholePart, ?_⟩
  by_cases hlt : d.places < d.spread.length
  · obtain ⟨c, cs, hcs⟩ := List.exists_cons_of_ne_nil (digits_ne_nil d.mantissa)
    have hhead := head?_digits hm
    rw [hcs, List.head?_cons, ne_eq, Option.some.injEq] at hhead
    obtain ⟨k, hk⟩ := Nat.exists_eq_add_of_lt hlt
    have htaken : d.spread.length - d.places = k + 1 := by omega
    refine .inr ⟨c, (cs ++ List.replicate d.exponent.toNat '0').take k, ?_, hhead⟩
    rw [wholePart, if_pos hlt, htaken, spread, hcs, List.cons_append, List.take_succ_cons]
  · exact .inl (if_neg hlt)

section

variable {x : Float} {m : ℕ} {e : ℤ} (hx : Double.IsPositive x m e) {d : Decimal}
  (near : Double.RoundsTo m e d.value)
include hx near

theorem mantissa_pos : 0 < d.mantissa := by
  have hvalue := hx.pos_of_near near
  rcases Nat.eq_zero_or_pos d.mantissa with hzero | hpos
  · rw [value, hzero, Nat.cast_zero, zero_mul] at hvalue
    exact absurd hvalue (lt_irrefl 0)
  · exact hpos

theorem toFloat_wholePart (hfraction : d.fractionPart = []) : toFloat d.wholePart ['0'] 0 = x := by
  have hzero : ofDigits (d.wholePart ++ ['0']) = ofDigits d.wholePart * 10 ^ 1 :=
    ofDigits_append_zeros d.wholePart 1
  have hvalue := value_parts d
  rw [hfraction, List.append_nil] at hvalue
  have hvalue' : (ofDigits (d.wholePart ++ ['0']) : ℚ) * 10 ^ (0 - Int.ofNat ['0'].length)
      = d.value := by
    rw [← hvalue, hzero]
    simp
  exact toFloat_eq hx (hvalue' ▸ near)

end

end Decimal

/-! The text of a double without an exponent -/

namespace Toml

theorem floatText_eq {x : Float} (hnan : x.isNaN = false) (hinf : x.isInf = false) :
    floatText x = if (positionalText x).toList.contains '.' then positionalText x
      else positionalText x ++ ".0" := by
  simp only [floatText, hnan, hinf, Bool.or_self, Bool.false_or]

theorem isPointed_of_near {x : Float} {m : ℕ} {e : ℤ} (hx : Double.IsPositive x m e) {d : Decimal}
    (near : Double.RoundsTo m e d.value) :
    IsPointed x (if d.positional.contains '.' then d.positional else d.positional ++ ['.', '0']) := by
  have hwhole := Decimal.isWhole_wholePart (Decimal.mantissa_pos hx near)
  rw [Decimal.positional_eq]
  by_cases hfraction : d.fractionPart = []
  · have hnone : '.' ∉ d.wholePart := fun h => absurd (hwhole.isDigit '.' h) (by decide)
    rw [if_pos hfraction, List.append_nil, List.contains_eq_mem, decide_eq_false hnone,
      if_neg Bool.false_ne_true]
    exact .intro hwhole (List.cons_ne_nil _ _) (List.forall_mem_singleton.2 rfl)
      (Decimal.toFloat_wholePart hx near hfraction)
  · rw [if_neg hfraction, List.contains_eq_mem, decide_eq_true (by simp), if_pos rfl]
    exact .intro hwhole hfraction (fun _ => Decimal.isDigit_of_mem_fractionPart)
      (Decimal.toFloat_parts hx near)

section

variable {x : Float} (hnan : x.isNaN = false) (hinf : x.isInf = false) (hsign : signBit x = false)
include hnan hinf hsign

theorem isPointed_floatText : IsPointed x (floatText x).toList := by
  obtain ⟨p, hp, hneg⟩ := Double.exists_parts hnan hinf
  rw [hsign] at hneg
  by_cases hm : p.mantissa = 0
  · rw [Double.eq_zero_of_parts hp hneg hm]
    have htext : (floatText 0.0).toList = ['0'] ++ '.' :: ['0'] := by decide
    rw [htext]
    exact .intro ⟨List.forall_mem_singleton.2 rfl, .inl rfl⟩ (List.cons_ne_nil _ _)
      (List.forall_mem_singleton.2 rfl) (by decide +kernel)
  · have hx := Double.isPositive_of_parts hp hneg hm
    have near := Decimal.roundsTo_shortest hx.pos hx.canonical
    have htext : (positionalText x).toList = (Decimal.shortest p).positional := by
      unfold positionalText
      simp only [numberText_of_parts hp, hneg, hm, Bool.false_eq_true, if_false, String.toList_ofList]
    have hpointed := isPointed_of_near hx near
    rw [← htext] at hpointed
    rw [floatText_eq hnan hinf]
    split at hpointed
    · rwa [if_pos ‹_›]
    · rw [if_neg ‹_›, String.toList_append]
      exact hpointed

theorem toList_floatText_neg : (floatText (-x)).toList = '-' :: (floatText x).toList := by
  have htext : (positionalText (-x)).toList = '-' :: (positionalText x).toList := by
    rw [positionalText_neg hnan hinf hsign, String.toList_append]
    rfl
  have hpoint : (positionalText (-x)).toList.contains '.'
      = (positionalText x).toList.contains '.' := by
    rw [htext]
    rfl
  rw [floatText_eq hnan hinf, floatText_eq ((Double.isNaN_neg x).trans hnan)
    ((Double.isInf_neg x).trans hinf), hpoint]
  split
  · exact htext
  · rw [String.toList_append, String.toList_append, htext, List.cons_append]

end

/-! Words -/

def isWordChar (c : Char) : Bool :=
  isBare c || c == '.'

theorem isWordChar_of_isDigit {c : Char} (h : Decimal.isDigit c = true) : isWordChar c = true := by
  simp [isWordChar, isBare, h]

theorem isDigit_or_of_isPointed {x : Float} {cs : List Char} (h : IsPointed x cs) {c : Char}
    (hc : c ∈ cs) : Decimal.isDigit c = true ∨ c = '.' := by
  obtain ⟨hwhole, -, hfraction, -⟩ := h
  rcases List.mem_append.1 hc with hc | hc
  · exact .inl (hwhole.isDigit c hc)
  · rcases List.mem_cons.1 hc with rfl | hc
    · exact .inr rfl
    · exact .inl (hfraction c hc)

theorem isWordChar_of_isPointed {x : Float} {cs : List Char} (h : IsPointed x cs) {c : Char}
    (hc : c ∈ cs) : isWordChar c = true := by
  rcases isDigit_or_of_isPointed h hc with hdigit | rfl
  · exact isWordChar_of_isDigit hdigit
  · decide

theorem Says.isWordChar_of_mem {word : List Char} {x : Scalar} (h : Says word x) {c : Char}
    (hc : c ∈ word) : isWordChar c = true := by
  cases h with
  | integer => exact isWordChar_of_isDigit (Decimal.isDigit_of_mem_digits hc)
  | nan | negNan | infinity | negInfinity => exact List.all_eq_true.1 rfl c hc
  | pointed hx => exact isWordChar_of_isPointed hx hc
  | negative hx =>
    rcases List.mem_cons.1 hc with rfl | hc
    · decide
    · exact isWordChar_of_isPointed hx hc

theorem says_floatText (x : Float) : Says (floatText x).toList (.float x) := by
  cases x using Double.sign_cases with
  | nan =>
    have htext : (floatText nan).toList = ['n', 'a', 'n'] := by decide
    rw [htext]
    exact .nan
  | infinity =>
    have htext : (floatText infinity).toList = ['i', 'n', 'f'] := by decide
    rw [htext]
    exact .infinity
  | negInfinity =>
    have htext : (floatText (-infinity)).toList = ['-', 'i', 'n', 'f'] := by decide
    rw [htext]
    exact .negInfinity
  | unsigned x hnan hinf hsign => exact .pointed (isPointed_floatText hnan hinf hsign) hinf
  | signed x hnan hinf hsign =>
    rw [toList_floatText_neg hnan hinf hsign]
    exact .negative (isPointed_floatText hnan hinf hsign) hinf

/-- **The words that a value is written with say the value.** -/
theorem says_of_writes {word : List Char} {x : Scalar} (h : Writes word x) (hx : x.fits = true) :
    Says word x := by
  cases h with
  | integer n => exact .integer hx
  | float x => exact says_floatText x
  | negNan => exact .negNan

end Toml

end PrefixCalculus
