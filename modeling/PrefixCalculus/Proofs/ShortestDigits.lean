import PrefixCalculus.Proofs.NearestDouble
set_option autoImplicit false

/-!
The fewest digits of a positive double. On the grid of seventeen digits one of the two neighbours of the
value is in the neighbourhood of the double, so the search for a coarser grid ends with a decimal that is
in the neighbourhood too. Main statement: the shortest decimal of a double rounds to it.
-/

namespace PrefixCalculus

namespace Decimal

def value (d : Decimal) : ℚ :=
  d.mantissa * 10 ^ d.exponent

theorem value_trim (steps : ℕ) : ∀ d : Decimal, (trim steps d).value = d.value := by
  induction steps with
  | zero => exact fun _ => rfl
  | succ steps ih =>
    intro d
    rw [trim]
    split
    next hten =>
      have hmantissa : (d.mantissa : ℚ) = (d.mantissa / 10 : ℕ) * 10 := by
        exact_mod_cast (Nat.div_mul_cancel (Nat.dvd_of_mod_eq_zero hten)).symm
      rw [ih, value, value, hmantissa, zpow_add_one₀ (by norm_num)]
      ring
    · rfl

namespace Neighbourhood

def Contains (n : Neighbourhood) (v : ℚ) : Prop :=
  if n.closed then n.low ≤ v * n.den ∧ v * n.den ≤ n.high else n.low < v * n.den ∧ v * n.den < n.high

theorem holds_iff {n : Neighbourhood} {d : ℕ} : n.holds d = true ↔ n.Contains d := by
  rw [holds, Contains]
  split
  · rw [Bool.and_eq_true, decide_eq_true_eq, decide_eq_true_eq]
    norm_cast
  · rw [Bool.and_eq_true, decide_eq_true_eq, decide_eq_true_eq]
    norm_cast

theorem zpow_mul_pow_toNat (k : ℤ) : (10 : ℚ) ^ k * 10 ^ (-k).toNat = 10 ^ k.toNat := by
  rw [← zpow_natCast, ← zpow_natCast, ← zpow_add₀ (by norm_num)]
  congr 1
  omega

theorem contains_inUnits {n : Neighbourhood} {k : ℤ} {v : ℚ} :
    (n.inUnits k).Contains v ↔ n.Contains (v * 10 ^ k) := by
  have hup : (0 : ℚ) < 10 ^ (-k).toNat := by positivity
  have hvalue : v * (n.den * 10 ^ k.toNat) = v * 10 ^ k * n.den * 10 ^ (-k).toNat := by
    rw [← zpow_mul_pow_toNat]
    ring
  simp only [Contains, inUnits, Nat.pow_eq]
  push_cast
  rw [hvalue, mul_le_mul_iff_left₀ hup, mul_le_mul_iff_left₀ hup, mul_lt_mul_iff_left₀ hup,
    mul_lt_mul_iff_left₀ hup]

theorem holds_of_whole? {n : Neighbourhood} {d : ℕ} (h : n.whole? = some d) : n.holds d = true := by
  rw [whole?] at h
  split at h
  · split at h
    next habove =>
      cases h
      rw [Bool.and_eq_true] at habove
      exact habove.1
    · cases h
      assumption
  · split at h
    · cases h
      assumption
    · cases h

/-- If the ends are further away than half a unit, the nearer of the whole numbers next to the value is
between them. -/
theorem whole?_ne_none {n : Neighbourhood} (hlow : 2 * n.low + n.den < 2 * n.value)
    (hhigh : 2 * n.value + n.den ≤ 2 * n.high) (hden : 0 < n.den) : n.whole? ≠ none := by
  have hdivision := Nat.div_add_mod n.value n.den
  have hrest := Nat.mod_lt n.value hden
  have hbelow : n.value / n.den * n.den = n.value - n.value % n.den := by
    rw [Nat.mul_comm]
    omega
  have hneighbour : n.holds (n.value / n.den) = true ∨ n.holds (n.value / n.den + 1) = true := by
    rw [holds, holds, Nat.add_mul, Nat.one_mul, hbelow]
    rcases Nat.lt_or_ge n.den (2 * (n.value % n.den)) with hhalf | hhalf
    · right
      split <;> simp <;> omega
    · left
      split <;> simp <;> omega
  rw [whole?]
  intro hnone
  split at hnone
  · split at hnone <;> cases hnone
  next hnot =>
    split at hnone
    · cases hnone
    next hnot' => exact hneighbour.elim hnot hnot'

theorem whole?_inUnits_ne_none {n : Neighbourhood} {k : ℤ}
    (hlow : 2 * (n.low : ℚ) + n.den * 10 ^ k < 2 * n.value)
    (hhigh : 2 * (n.value : ℚ) + n.den * 10 ^ k ≤ 2 * n.high) (hden : 0 < n.den) :
    (n.inUnits k).whole? ≠ none := by
  have hup : (0 : ℚ) < 10 ^ (-k).toNat := by positivity
  refine whole?_ne_none ?_ ?_ (Nat.mul_pos hden (Nat.pow_pos (by decide)))
  · change 2 * (n.low * 10 ^ (-k).toNat) + n.den * 10 ^ k.toNat < 2 * (n.value * 10 ^ (-k).toNat)
    have h := mul_lt_mul_of_pos_right hlow hup
    rw [add_mul, mul_assoc (n.den : ℚ), zpow_mul_pow_toNat, mul_assoc, mul_assoc] at h
    exact_mod_cast h
  · change 2 * (n.value * 10 ^ (-k).toNat) + n.den * 10 ^ k.toNat ≤ 2 * (n.high * 10 ^ (-k).toNat)
    have h := mul_le_mul_of_nonneg_right hhigh hup.le
    rw [add_mul, mul_assoc (n.den : ℚ), zpow_mul_pow_toNat, mul_assoc, mul_assoc] at h
    exact_mod_cast h

theorem contains_shortestFrom {n : Neighbourhood} {leading : ℤ} {left : ℕ} : ∀ {count : ℕ},
    (∃ c, count ≤ c ∧ c < count + left ∧ (n.inUnits (leading - Int.ofNat c + 1)).whole? ≠ none) →
      n.Contains (shortestFrom n leading left count).value := by
  induction left with
  | zero =>
    rintro count ⟨c, hle, hlt, -⟩
    omega
  | succ left ih =>
    rintro count ⟨c, hle, hlt, hc⟩
    rw [shortestFrom]
    split
    next d hd =>
      rw [value_trim]
      exact contains_inUnits.1 (holds_iff.1 (holds_of_whole? hd))
    next hnone =>
      have hne : c ≠ count := by
        rintro rfl
        exact hc hnone
      exact ih ⟨c, by omega, by omega, hc⟩

end Neighbourhood

/-! The leading digit -/

theorem pow_digitCount_le {n : ℕ} (hn : 0 < n) : 10 ^ (digitCount n - 1) ≤ n := by
  by_contra hlt
  have hcount : digitCount n - 1 ≠ 0 := by
    intro hzero
    rw [hzero] at hlt
    omega
  have hle := (Nat.length_toDigits_le_iff (b := 10) (by decide) (Nat.pos_of_ne_zero hcount)).2
    (Nat.not_le.1 hlt)
  rw [← digitCount] at hle
  omega

theorem lt_pow_digitCount (n : ℕ) : n < 10 ^ digitCount n :=
  (Nat.length_toDigits_le_iff (by decide) Nat.length_toDigits_pos).1 le_rfl

theorem leadingExponent_le {num den : ℕ} (hnum : 0 < num) (hden : 0 < den) :
    (10 : ℚ) ^ leadingExponent num den ≤ num / den := by
  have hden' : (0 : ℚ) < den := by exact_mod_cast hden
  rw [leadingExponent, le_div_iff₀ hden']
  split
  next hle =>
    have hquotient : 0 < num / den := Nat.div_pos hle hden
    have hcount : Int.ofNat (digitCount (num / den)) - 1 = (digitCount (num / den) - 1 : ℕ) := by
      have hpos : 0 < digitCount (num / den) := Nat.length_toDigits_pos
      change (digitCount (num / den) : ℤ) - 1 = _
      omega
    have hpow : 10 ^ (digitCount (num / den) - 1) * den ≤ num :=
      (Nat.mul_le_mul_right den (pow_digitCount_le hquotient)).trans (Nat.div_mul_le_self num den)
    rw [hcount, zpow_natCast]
    exact_mod_cast hpow
  next =>
    have hlt : den - 1 < 10 ^ digitCount ((den - 1) / num) * num :=
      (Nat.div_lt_iff_lt_mul hnum).1 (lt_pow_digitCount _)
    have hpow : den ≤ 10 ^ digitCount ((den - 1) / num) * num := by omega
    rw [zpow_neg, Int.ofNat_eq_natCast, zpow_natCast, inv_mul_le_iff₀ (by positivity)]
    exact_mod_cast hpow

/-! The neighbourhood of a double -/

section

variable {p : FloatParts}

theorem exists_unit (hm : 0 < p.mantissa) : ∃ unit : ℕ, 0 < unit ∧
    0 < (Neighbourhood.ofParts p).den ∧
    (unit : ℚ) * 4 = 2 ^ p.exponent * (Neighbourhood.ofParts p).den ∧
    ((Neighbourhood.ofParts p).low : ℚ)
      = (4 * p.mantissa - Double.reachBelow p.mantissa p.exponent) * unit ∧
    (Neighbourhood.ofParts p).value = 4 * p.mantissa * unit ∧
    (Neighbourhood.ofParts p).high = (4 * p.mantissa + 2) * unit := by
  have hreach : Double.reachBelow p.mantissa p.exponent ≤ 4 * p.mantissa := by
    unfold Double.reachBelow
    split <;> omega
  refine ⟨Nat.pow 2 (p.exponent - 2).toNat, Nat.two_pow_pos _, Nat.two_pow_pos _, ?_, ?_, rfl, rfl⟩
  · have hsplit : p.exponent = (p.exponent - 2).toNat - ((2 - p.exponent).toNat : ℤ) + 2 := by omega
    have hpow : (2 : ℚ) ^ p.exponent
        = 2 ^ (p.exponent - 2).toNat / 2 ^ (2 - p.exponent).toNat * 4 := by
      have hfour : (2 : ℚ) ^ (2 : ℤ) = 4 := by norm_num
      conv_lhs => rw [hsplit, zpow_add₀ two_ne_zero, zpow_sub₀ two_ne_zero, zpow_natCast,
        zpow_natCast, hfour]
    rw [hpow]
    change ((2 ^ (p.exponent - 2).toNat : ℕ) : ℚ) * 4 = _ * ((2 ^ (2 - p.exponent).toNat : ℕ) : ℚ)
    push_cast
    field_simp
  · have hlow : (Neighbourhood.ofParts p).low
        = (4 * p.mantissa - Double.reachBelow p.mantissa p.exponent)
          * Nat.pow 2 (p.exponent - 2).toNat := rfl
    rw [hlow, Nat.cast_mul, Nat.cast_sub hreach]
    push_cast
    rfl

theorem roundsTo_of_contains (hm : 0 < p.mantissa) {v : ℚ}
    (h : (Neighbourhood.ofParts p).Contains v) : Double.RoundsTo p.mantissa p.exponent v := by
  obtain ⟨unit, hunit, -, hden, hlow, -, hhigh⟩ := exists_unit hm
  have hunit : (0 : ℚ) < unit := by exact_mod_cast hunit
  have hv : v * (Neighbourhood.ofParts p).den = 4 * (v / 2 ^ p.exponent) * unit := by
    rw [mul_right_comm, mul_comm (4 : ℚ) unit, hden]
    field_simp
  have hhigh : ((Neighbourhood.ofParts p).high : ℚ) = (4 * p.mantissa + 2) * unit := by
    exact_mod_cast hhigh
  rw [Neighbourhood.Contains, hv, hlow, hhigh, mul_le_mul_iff_left₀ hunit,
    mul_le_mul_iff_left₀ hunit, mul_lt_mul_iff_left₀ hunit, mul_lt_mul_iff_left₀ hunit] at h
  by_cases hodd : p.mantissa % 2 = 1
  · have hopen : (Neighbourhood.ofParts p).closed = false := by
      change (p.mantissa % 2 == 0) = false
      rw [hodd]
      rfl
    rw [hopen, if_neg Bool.false_ne_true] at h
    exact ⟨h.1.le, h.2.le, fun _ => h⟩
  · have hclosed : (Neighbourhood.ofParts p).closed = true := by
      change (p.mantissa % 2 == 0) = true
      rw [beq_iff_eq]
      omega
    rw [hclosed, if_pos rfl] at h
    exact ⟨h.1, h.2, fun h => absurd h hodd⟩

theorem mantissa_lt_reachBelow {m : ℕ} {e : ℤ} (canonical : Double.Canonical m e) :
    4 * (m : ℚ) < 2 * Double.reachBelow m e * 10 ^ 16 := by
  unfold Double.reachBelow
  split
  next hpower =>
    rw [hpower.1]
    norm_num
  next =>
    have hlt : (m : ℚ) < 2 ^ 53 := by exact_mod_cast canonical.lt
    norm_num
    linarith

/-- Seventeen digits are enough: on their grid the unit is less than the distance to either end. -/
theorem whole?_seventeen_ne_none (hm : 0 < p.mantissa)
    (canonical : Double.Canonical p.mantissa p.exponent) :
    ((Neighbourhood.ofParts p).inUnits
      (leadingExponent (Neighbourhood.ofParts p).value (Neighbourhood.ofParts p).den
        - Int.ofNat 17 + 1)).whole? ≠ none := by
  obtain ⟨unit, hunit, hden, -, hlow, hvalue, hhigh⟩ := exists_unit hm
  generalize Neighbourhood.ofParts p = n at hden hlow hvalue hhigh ⊢
  have hpos : 0 < n.value := by
    rw [hvalue]
    positivity
  have hleading := leadingExponent_le hpos hden
  obtain ⟨k, hk⟩ : ∃ k, k = leadingExponent n.value n.den - Int.ofNat 17 + 1 := ⟨_, rfl⟩
  rw [← hk]
  have hunit : (0 : ℚ) < unit := by exact_mod_cast hunit
  have hden' : (0 : ℚ) < n.den := by exact_mod_cast hden
  have hvalue : (n.value : ℚ) = 4 * p.mantissa * unit := by exact_mod_cast hvalue
  have hhigh : (n.high : ℚ) = (4 * p.mantissa + 2) * unit := by exact_mod_cast hhigh
  have hgrid : (n.den : ℚ) * 10 ^ k * 10 ^ 16 ≤ n.value := by
    have hexp : leadingExponent n.value n.den = k + 16 := by
      change k = leadingExponent n.value n.den - 17 + 1 at hk
      omega
    have hsixteen : (10 : ℚ) ^ (16 : ℤ) = 10 ^ 16 := by norm_num
    rw [hexp, zpow_add₀ (by norm_num), le_div_iff₀ hden', hsixteen] at hleading
    linarith
  have hreach := mul_le_mul_of_nonneg_right (Double.reachBelow_le p.mantissa p.exponent) hunit.le
  have hmantissa := mul_lt_mul_of_pos_right (mantissa_lt_reachBelow canonical) hunit
  rw [hvalue] at hgrid
  refine Neighbourhood.whole?_inUnits_ne_none ?_ ?_ hden
  · rw [hlow, hvalue]
    nlinarith only [hgrid, hmantissa]
  · rw [hhigh, hvalue]
    nlinarith only [hgrid, hmantissa, hreach]

/-- **The shortest digits of a double round to it.** -/
theorem roundsTo_shortest (hm : 0 < p.mantissa)
    (canonical : Double.Canonical p.mantissa p.exponent) :
    Double.RoundsTo p.mantissa p.exponent (shortest p).value :=
  roundsTo_of_contains hm (Neighbourhood.contains_shortestFrom
    ⟨17, by decide, by decide, whole?_seventeen_ne_none hm canonical⟩)

end

end Decimal

end PrefixCalculus
