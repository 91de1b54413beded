import PrefixCalculus.Proofs.DoubleArithmetic
import PrefixCalculus.Proofs.ExactValues
set_option autoImplicit false

/-!
Rounding to the nearest double. A number between the half-way points around a double, or on one of them
if the mantissa is even, is rounded to this double, whether it comes out of a product or of a quotient.
Main statement: a decimal in the neighbourhood of a positive double is converted to it, also where the
conversion is one operation on doubles.
-/

namespace PrefixCalculus

namespace Double

open Float.Model Float.Model.UnpackedFloat

/-! Bits that are shifted out -/

/-- The number that a mantissa stands for together with what was shifted out of it. -/
inductive Shows : ExtendedMantissa → ℚ → Prop
  | whole (m : ℕ) : Shows ⟨m, false, false⟩ m
  | below (m : ℕ) {r : ℚ} (hpos : 0 < r) (hr : r < 1 / 2) : Shows ⟨m, false, true⟩ (m + r)
  | half (m : ℕ) : Shows ⟨m, true, false⟩ (m + 1 / 2)
  | above (m : ℕ) {r : ℚ} (hr : 1 / 2 < r) (hlt : r < 1) : Shows ⟨m, true, true⟩ (m + r)

namespace Shows

variable {x : ExtendedMantissa} {v : ℚ}

theorem le (h : Shows x v) : x.mantissa ≤ v ∧ v < x.mantissa + 1 := by
  cases h <;> constructor <;> dsimp only <;> linarith

theorem shiftRightOne (h : Shows x v) : Shows x.shiftRightOne (v / 2) := by
  obtain ⟨m, round, sticky⟩ := x
  -- the bit that is shifted out decides on which side of the half the remainder is
  obtain ⟨q, rfl | rfl⟩ : ∃ q, m = 2 * q ∨ m = 2 * q + 1 := ⟨m / 2, by omega⟩
  · have hhalf : (2 * q) / 2 = q := by omega
    have heven : ((2 * q) % 2 != 0) = false := by simp
    rw [ExtendedMantissa.shiftRightOne, hhalf, heven]
    cases h with
    | whole => simpa using Shows.whole q
    | @below _ r hpos hr =>
      have hv : ((2 * q : ℕ) + r) / 2 = (q : ℚ) + r / 2 := by push_cast; ring
      rw [hv]
      exact .below q (by linarith) (by linarith)
    | half =>
      have hv : ((2 * q : ℕ) + 1 / 2 : ℚ) / 2 = (q : ℚ) + 1 / 4 := by push_cast; ring
      rw [hv]
      exact .below q (by norm_num) (by norm_num)
    | @above _ r hr hlt =>
      have hv : ((2 * q : ℕ) + r) / 2 = (q : ℚ) + r / 2 := by push_cast; ring
      rw [hv]
      exact .below q (by linarith) (by linarith)
  · have hhalf : (2 * q + 1) / 2 = q := by omega
    have hodd : ((2 * q + 1) % 2 != 0) = true := by simp
    rw [ExtendedMantissa.shiftRightOne, hhalf, hodd]
    cases h with
    | whole =>
      have hv : ((2 * q + 1 : ℕ) : ℚ) / 2 = (q : ℚ) + 1 / 2 := by push_cast; ring
      rw [hv]
      exact .half q
    | @below _ r hpos hr =>
      have hv : ((2 * q + 1 : ℕ) + r) / 2 = (q : ℚ) + (1 + r) / 2 := by push_cast; ring
      rw [hv]
      exact .above q (by linarith) (by linarith)
    | half =>
      have hv : ((2 * q + 1 : ℕ) + 1 / 2 : ℚ) / 2 = (q : ℚ) + 3 / 4 := by push_cast; ring
      rw [hv]
      exact .above q (by norm_num) (by norm_num)
    | @above _ r hr hlt =>
      have hv : ((2 * q + 1 : ℕ) + r) / 2 = (q : ℚ) + (1 + r) / 2 := by push_cast; ring
      rw [hv]
      exact .above q (by linarith) (by linarith)

theorem shiftRight (h : Shows x v) (n : ℕ) : Shows (x >>> n) (v / 2 ^ n) := by
  induction n with
  | zero =>
    have hv : v / 2 ^ 0 = v := by simp
    rw [hv]
    exact h
  | succ n ih =>
    rw [pow_succ, ← div_div]
    exact ih.shiftRightOne

/-- The rounded mantissa is the nearest whole number, the even one on a tie. -/
theorem roundedMantissa (h : Shows x v) {n : ℕ} (hlow : (n : ℚ) ≤ v + 1 / 2)
    (hhigh : v ≤ n + 1 / 2) (hodd : n % 2 = 1 → (n : ℚ) < v + 1 / 2 ∧ v < n + 1 / 2) :
    x.roundedMantissa = n := by
  have lt_of {a b : ℕ} (h : (a : ℚ) < b) : a < b := by exact_mod_cast h
  cases h with
  | whole m =>
    have hle : n < m + 1 := lt_of (by push_cast; linarith)
    have hge : m < n + 1 := lt_of (by push_cast; linarith)
    change m = n
    omega
  | @below m r hpos hr =>
    have hle : n < m + 1 := lt_of (by push_cast; linarith)
    have hge : m < n + 1 := lt_of (by push_cast; linarith)
    change m = n
    omega
  | half m =>
    have hle : n < m + 2 := lt_of (by push_cast; linarith)
    have hge : m < n + 1 := lt_of (by push_cast; linarith)
    change m + m % 2 = n
    by_cases hn : n % 2 = 1
    · obtain ⟨hlow, hhigh⟩ := hodd hn
      have hle : n < m + 1 := lt_of (by push_cast; linarith)
      have hge : m < n := lt_of (by linarith)
      omega
    · omega
  | @above m r hr hlt =>
    have hle : n < m + 2 := lt_of (by push_cast; linarith)
    have hge : m < n := lt_of (by linarith)
    change m + 1 = n
    omega

end Shows

theorem shows_accuracyOfFraction (m num : ℕ) {den : ℕ} (hlt : num < den) :
    Shows (.ofMantissaAndAccuracy m (accuracyOfFraction num den)) (m + num / den) := by
  have hden : (0 : ℚ) < den := by exact_mod_cast Nat.lt_of_le_of_lt (Nat.zero_le _) hlt
  have hlt' : (num : ℚ) / den < 1 := by
    rw [div_lt_one hden]
    exact_mod_cast hlt
  rw [accuracyOfFraction]
  by_cases hzero : num = 0
  · rw [if_pos hzero, hzero]
    have hv : (m : ℚ) + (0 : ℕ) / den = m := by simp
    rw [hv]
    exact .whole m
  · rw [if_neg hzero]
    have hpos : (0 : ℚ) < (num : ℚ) / den := by
      have hnum : (0 : ℚ) < num := by exact_mod_cast Nat.pos_of_ne_zero hzero
      positivity
    rcases Nat.lt_trichotomy (2 * num) den with h | h | h
    · rw [Nat.compare_eq_lt.2 h]
      refine .below m hpos ?_
      rw [div_lt_iff₀ hden]
      have : (2 * num : ℚ) < den := by exact_mod_cast h
      linarith
    · rw [Nat.compare_eq_eq.2 h]
      have hhalf : (num : ℚ) / den = 1 / 2 := by
        have : (2 * num : ℚ) = den := by exact_mod_cast h
        rw [div_eq_iff hden.ne', ← this]
        ring
      rw [hhalf]
      exact .half m
    · rw [Nat.compare_eq_gt.2 h]
      refine .above m ?_ hlt'
      rw [lt_div_iff₀ hden]
      have : (den : ℚ) < 2 * num := by exact_mod_cast h
      linarith

/-! Rounding -/

/-- How far below a double, in quarters of its unit, the half-way point to the next one is: the unit
below a power of two is half as long. -/
def reachBelow (m : ℕ) (e : ℤ) : ℕ :=
  if m = 2 ^ 52 ∧ -1074 < e then 1 else 2

theorem reachBelow_le (m : ℕ) (e : ℤ) : (reachBelow m e : ℚ) ≤ 2 := by
  unfold reachBelow
  split <;> norm_num

theorem one_le_reachBelow (m : ℕ) (e : ℤ) : (1 : ℚ) ≤ reachBelow m e := by
  unfold reachBelow
  split <;> norm_num

/-- The number is between the half-way points around the double with this mantissa and this exponent,
or on one of them if the mantissa is even. -/
structure RoundsTo (m : ℕ) (e : ℤ) (v : ℚ) : Prop where
  low : 4 * (m : ℚ) - reachBelow m e ≤ 4 * (v / 2 ^ e)
  high : 4 * (v / 2 ^ e) ≤ 4 * m + 2
  odd : m % 2 = 1 → 4 * (m : ℚ) - reachBelow m e < 4 * (v / 2 ^ e) ∧ 4 * (v / 2 ^ e) < 4 * m + 2

theorem div_zpow_mul (v : ℚ) (e : ℤ) : v / 2 ^ e * 2 ^ e = v :=
  div_mul_cancel₀ v (by positivity)

theorem zpow_lt_iff {a b : ℤ} : (2 : ℚ) ^ a < 2 ^ b ↔ a < b :=
  zpow_lt_zpow_iff_right₀ (by norm_num)

theorem targetExponent_eq {m : ℕ} {e t : ℤ} {v : ℚ} (hm : m ≤ v / 2 ^ e ∧ v / 2 ^ e < m + 1)
    (room : e ≤ -1074 ∨ 2 ^ 52 ≤ m) (hleast : -1074 ≤ t) (hlow : -1074 < t → 2 ^ (t + 52) ≤ v)
    (hhigh : v < 2 ^ (t + 53)) :
    Format.binary64.targetExponent (totalExponent m e) = t ∧ e ≤ t := by
  have hpos : (0 : ℚ) < 2 ^ e := by positivity
  have hbelow : m * 2 ^ e ≤ v := (le_div_iff₀ hpos).1 hm.1
  have habove : v < (m + 1) * 2 ^ e := (div_lt_iff₀ hpos).1 hm.2
  have hsize : -1074 < t → t + 52 < m.log2 + 1 + e := by
    intro ht
    have hlog : ((m : ℚ) + 1) ≤ 2 ^ (m.log2 + 1) := by exact_mod_cast Nat.lt_log2_self
    rw [← zpow_lt_iff]
    calc (2 : ℚ) ^ (t + 52) ≤ v := hlow ht
      _ < (m + 1) * 2 ^ e := habove
      _ ≤ 2 ^ (m.log2 + 1) * 2 ^ e := by gcongr
      _ = 2 ^ (m.log2 + 1 + e : ℤ) := by rw [zpow_add₀ two_ne_zero]; norm_cast
  have hlt : 0 < m → m.log2 + e < t + 53 := by
    intro hm
    have hlog : (2 : ℚ) ^ m.log2 ≤ m := by exact_mod_cast Nat.log2_self_le hm.ne'
    rw [← zpow_lt_iff]
    calc (2 : ℚ) ^ (m.log2 + e : ℤ) = 2 ^ m.log2 * 2 ^ e := by
          rw [zpow_add₀ two_ne_zero, zpow_natCast]
      _ ≤ m * 2 ^ e := by gcongr
      _ ≤ v := hbelow
      _ < 2 ^ (t + 53) := hhigh
  have hroom : e ≤ -1074 ∨ 52 ≤ m.log2 ∧ 0 < m :=
    room.imp id fun h => ⟨(Nat.le_log2 (by omega)).2 h, by omega⟩
  simp only [Format.targetExponent, totalExponent, Format.mantissaBits, Format.minExponent]
  rcases Nat.eq_zero_or_pos m with hzero | hpos
  · have hlog : m.log2 = 0 := by rw [hzero]; rfl
    omega
  · have hlt := hlt hpos
    omega

theorem Canonical.targetExponent {m : ℕ} {e : ℤ} (h : Canonical m e) :
    Format.binary64.targetExponent (totalExponent m e) = e := by
  have hpos : (0 : ℚ) < 2 ^ e := by positivity
  have hv : (m : ℚ) * 2 ^ e / 2 ^ e = m := mul_div_cancel_right₀ _ hpos.ne'
  refine (targetExponent_eq (v := m * 2 ^ e) ?_ ?_ h.least_le (fun he => ?_) ?_).1
  · rw [hv]
    exact ⟨le_rfl, by linarith⟩
  · exact (le_or_gt e (-1074)).imp id h.le
  · have hm : (2 ^ 52 : ℚ) ≤ m := by exact_mod_cast h.le he
    rw [add_comm, zpow_add₀ two_ne_zero]
    exact mul_le_mul_of_nonneg_right (by exact_mod_cast hm) hpos.le
  · have hm : (m : ℚ) < 2 ^ 53 := by exact_mod_cast h.lt
    rw [add_comm, zpow_add₀ two_ne_zero]
    exact mul_lt_mul_of_pos_right (by exact_mod_cast hm) hpos

/-- The number has the exponent of a double, and the whole number is the nearest one to it in the unit
of this exponent, the even one on a tie. -/
structure NearestAt (n : ℕ) (t : ℤ) (v : ℚ) : Prop where
  least : -1074 ≤ t
  normal : -1074 < t → 2 ^ (t + 52) ≤ v
  lt : v < 2 ^ (t + 53)
  low : (n : ℚ) ≤ v / 2 ^ t + 1 / 2
  high : v / 2 ^ t ≤ n + 1 / 2
  odd : n % 2 = 1 → (n : ℚ) < v / 2 ^ t + 1 / 2 ∧ v / 2 ^ t < n + 1 / 2

namespace RoundsTo

variable {m : ℕ} {e : ℤ} {v : ℚ} (h : RoundsTo m e v) (canonical : Canonical m e)
include h canonical

theorem eq_two_pow (he : -1074 < e) (hlt : v / 2 ^ e < 2 ^ 52) : m = 2 ^ 52 := by
  have low := h.low
  have hreach := reachBelow_le m e
  have hge := canonical.le he
  have hle : (m : ℚ) < (2 ^ 52 : ℕ) + 1 := by push_cast; linarith
  have hle : m < 2 ^ 52 + 1 := by exact_mod_cast hle
  omega

/-- A number below a power of two has the next smaller exponent, with which the rounding carries
over. -/
theorem nearestAt_pred (he : -1074 < e) (hlt : v / 2 ^ e < 2 ^ 52) :
    NearestAt (m * 2) (e - 1) v := by
  have hm := h.eq_two_pow canonical he hlt
  have hcast : (m : ℚ) = 2 ^ 52 := by rw [hm]; norm_num
  have hone : (reachBelow m e : ℚ) = 1 := by rw [reachBelow, if_pos ⟨hm, he⟩, Nat.cast_one]
  have hmantissa : ((m * 2 : ℕ) : ℚ) = 2 ^ 53 := by push_cast; rw [hcast]; norm_num
  have hdouble : v / 2 ^ (e - 1) = 2 * (v / 2 ^ e) := by
    rw [zpow_sub₀ two_ne_zero]
    field_simp
  have low := h.low
  rw [hone, hcast] at low
  have hv := div_zpow_mul v e
  have hpos : (0 : ℚ) < 2 ^ e := by positivity
  refine ⟨by omega, fun _ => ?_, ?_, ?_, ?_, fun hodd => by omega⟩
  · have hsplit : e - 1 + 52 = e + 51 := by omega
    rw [hsplit, ← hv, add_comm, zpow_add₀ two_ne_zero]
    exact mul_le_mul_of_nonneg_right (by norm_num; linarith) hpos.le
  · have hsplit : e - 1 + 53 = e + 52 := by omega
    rw [hsplit, ← hv, add_comm, zpow_add₀ two_ne_zero]
    exact mul_lt_mul_of_pos_right (by exact_mod_cast hlt) hpos
  · rw [hdouble, hmantissa]
    linarith
  · rw [hdouble, hmantissa]
    linarith

theorem nearestAt (hge : -1074 < e → 2 ^ 52 ≤ v / 2 ^ e) : NearestAt m e v := by
  have low := h.low
  have high := h.high
  have hreach := reachBelow_le m e
  have hmlt : (m : ℚ) + 1 ≤ 2 ^ 53 := by exact_mod_cast canonical.lt
  have hv := div_zpow_mul v e
  have hpos : (0 : ℚ) < 2 ^ e := by positivity
  refine ⟨canonical.least_le, fun he => ?_, ?_, by linarith, by linarith, fun hodd => ?_⟩
  · rw [← hv, add_comm, zpow_add₀ two_ne_zero]
    exact mul_le_mul_of_nonneg_right (by exact_mod_cast hge he) hpos.le
  · rw [← hv, add_comm, zpow_add₀ two_ne_zero]
    refine mul_lt_mul_of_pos_right ?_ hpos
    have hlt : v / 2 ^ e < 2 ^ 53 := by linarith
    exact_mod_cast hlt
  · obtain ⟨hlow, hhigh⟩ := h.odd hodd
    exact ⟨by linarith, by linarith⟩

theorem exists_nearestAt : ∃ j : ℕ, NearestAt (m * 2 ^ j) (e - j) v := by
  by_cases hbinade : -1074 < e ∧ v / 2 ^ e < 2 ^ 52
  · exact ⟨1, h.nearestAt_pred canonical hbinade.1 hbinade.2⟩
  · rw [not_and, not_lt] at hbinade
    refine ⟨0, ?_⟩
    rw [pow_zero, mul_one, Nat.cast_zero, Int.sub_zero]
    exact h.nearestAt canonical hbinade

end RoundsTo

/-- What is near a double is rounded to it, if it comes with all the bits that the double has. -/
theorem roundWithAccuracy_eq (s : Sign) {m n : ℕ} {e e' : ℤ} {v : ℚ} {accuracy : Accuracy}
    (hshows : Shows (.ofMantissaAndAccuracy n accuracy) (v / 2 ^ e'))
    (room : e' ≤ -1074 ∨ 2 ^ 52 ≤ n) (hm : 0 < m) (canonical : Canonical m e)
    (near : RoundsTo m e v) :
    roundWithAccuracy Format.binary64 s n e' accuracy = .finite s m e hm := by
  obtain ⟨j, hnearest⟩ := near.exists_nearestAt canonical
  have hmantissa : (ExtendedMantissa.ofMantissaAndAccuracy n accuracy).mantissa = n := by
    cases accuracy with
    | exact => rfl
    | inexact o => cases o <;> rfl
  have hle := hshows.le
  rw [hmantissa] at hle
  obtain ⟨htarget, hexp⟩ :=
    targetExponent_eq hle room hnearest.least hnearest.normal hnearest.lt
  have hshift : e' + ((e - j - e').toNat : ℤ) = e - j := by omega
  have hscaled : v / 2 ^ e' / 2 ^ (e - j - e').toNat = v / 2 ^ (e - j) := by
    rw [div_div, ← zpow_natCast, ← zpow_add₀ two_ne_zero, hshift]
  have hshifted := hshows.shiftRight (e - j - e').toNat
  rw [hscaled] at hshifted
  have hrounded := hshifted.roundedMantissa hnearest.low hnearest.high hnearest.odd
  have hfirst : shiftToTargetExponent Format.binary64 n e' accuracy
      = (ExtendedMantissa.ofMantissaAndAccuracy n accuracy >>> (e - j - e').toNat, e - j) := by
    simp only [shiftToTargetExponent, shiftToExponent, htarget, hshift]
  have hsecond := shiftToTargetExponent_exact hm canonical.targetExponent j
  simp only [roundWithAccuracy, hfirst, hrounded, hsecond]
  rw [dif_neg (by omega)]

/-! Products and quotients -/

theorem exists_divCore {m₁ m₂ : ℕ} (hm₁ : 0 < m₁) (hm₂ : 0 < m₂) (e₁ e₂ : ℤ) :
    ∃ (t : ℤ) (shift : ℕ), (shift : ℤ) = e₁ - e₂ - t ∧
      (t ≤ -1074 ∨ 2 ^ 52 ≤ m₁ * 2 ^ shift / m₂) ∧
      divCore Format.binary64 m₁ e₁ m₂ e₂ = (m₁ * 2 ^ shift / m₂, t,
        accuracyOfFraction (m₁ * 2 ^ shift % m₂) m₂) := by
  have htarget : Format.binary64.targetExponent (totalExponent m₁ e₁ - totalExponent m₂ e₂)
      = max (m₁.log2 + e₁ - (m₂.log2 + e₂) - 53) (-1074) := by
    simp only [Format.targetExponent, totalExponent, Format.mantissaBits, Format.minExponent]
    omega
  obtain ⟨t, ht⟩ : ∃ t, t = min (e₁ - e₂) (max (m₁.log2 + e₁ - (m₂.log2 + e₂) - 53) (-1074)) :=
    ⟨_, rfl⟩
  obtain ⟨shift, hshift⟩ : ∃ shift, shift = (e₁ - e₂ - t).toNat := ⟨_, rfl⟩
  refine ⟨t, shift, by omega, ?_, ?_⟩
  · rcases le_or_gt (m₁.log2 + e₁ - (m₂.log2 + e₂) - 53) (-1074) with hleast | hleast
    · exact .inl (by omega)
    · right
      have hroom : m₂.log2 + 53 ≤ m₁.log2 + shift := by omega
      rw [Nat.le_div_iff_mul_le hm₂]
      calc 2 ^ 52 * m₂ ≤ 2 ^ 52 * 2 ^ (m₂.log2 + 1) :=
            Nat.mul_le_mul_left _ Nat.lt_log2_self.le
        _ = 2 ^ (m₂.log2 + 53) := by rw [← Nat.pow_add]; congr 1; omega
        _ ≤ 2 ^ (m₁.log2 + shift) := Nat.pow_le_pow_right (by decide) hroom
        _ = 2 ^ m₁.log2 * 2 ^ shift := Nat.pow_add ..
        _ ≤ m₁ * 2 ^ shift := Nat.mul_le_mul_right _ (Nat.log2_self_le hm₁.ne')
  · simp only [divCore, Nat.shiftLeft_eq, htarget, ← ht, ← hshift]

section

variable {m m₁ m₂ : ℕ} {e e₁ e₂ : ℤ} (hm : 0 < m) (canonical : Canonical m e) (hm₁ : 0 < m₁)
  (hm₂ : 0 < m₂)
include canonical

theorem mul_eq (room : 2 ^ 52 ≤ m₁) (near : RoundsTo m e (m₁ * 2 ^ e₁ * (m₂ * 2 ^ e₂))) :
    UnpackedFloat.mul Format.binary64 (.finite .positive m₁ e₁ hm₁) (.finite .positive m₂ e₂ hm₂)
      = .finite .positive m e hm := by
  refine roundWithAccuracy_eq .positive ?_ (.inr ?_) hm canonical near
  · have hv : (m₁ * 2 ^ e₁ * (m₂ * 2 ^ e₂) : ℚ) / 2 ^ (e₁ + e₂) = (m₁ * m₂ : ℕ) := by
      rw [zpow_add₀ two_ne_zero]
      push_cast
      field_simp
    rw [hv]
    exact .whole _
  · exact room.trans (Nat.le_mul_of_pos_right m₁ hm₂)

theorem div_eq (near : RoundsTo m e (m₁ * 2 ^ e₁ / (m₂ * 2 ^ e₂))) :
    UnpackedFloat.div Format.binary64 (.finite .positive m₁ e₁ hm₁) (.finite .positive m₂ e₂ hm₂)
      = .finite .positive m e hm := by
  obtain ⟨t, shift, hshift, room, hcore⟩ := exists_divCore hm₁ hm₂ e₁ e₂
  have hshows := shows_accuracyOfFraction (m₁ * 2 ^ shift / m₂) (m₁ * 2 ^ shift % m₂)
    (Nat.mod_lt _ hm₂)
  have hv : ((m₁ * 2 ^ shift / m₂ : ℕ) : ℚ) + (m₁ * 2 ^ shift % m₂ : ℕ) / m₂
      = m₁ * 2 ^ e₁ / (m₂ * 2 ^ e₂) / 2 ^ t := by
    have hne : (m₂ : ℚ) ≠ 0 := by exact_mod_cast hm₂.ne'
    have hdivision : ((m₂ * (m₁ * 2 ^ shift / m₂) + m₁ * 2 ^ shift % m₂ : ℕ) : ℚ)
        = m₁ * 2 ^ (shift : ℤ) := by
      rw [Nat.div_add_mod]
      push_cast
      rw [zpow_natCast]
    rw [hshift, zpow_sub₀ two_ne_zero, zpow_sub₀ two_ne_zero] at hdivision
    push_cast at hdivision
    field_simp at hdivision ⊢
    exact hdivision
  rw [hv] at hshows
  simp only [UnpackedFloat.div, hcore]
  exact roundWithAccuracy_eq .positive hshows room hm canonical near

end

/-! Positive doubles -/

structure IsPositive (x : Float) (m : ℕ) (e : ℤ) : Prop where
  pos : 0 < m
  unpack : x.toModel.unpack = .finite .positive m e pos
  canonical : Canonical m e
  le : e ≤ 971

theorem isPositive_of_parts {x : Float} {p : FloatParts} (h : FloatParts.ofFloat? x = some p)
    (hsign : p.negative = false) (hm : p.mantissa ≠ 0) : IsPositive x p.mantissa p.exponent := by
  obtain ⟨s, e, m, hx⟩ := exists_fields x
  have hunpacks := hx.unpacks
  have he := e.isLt
  have hs : (s == .negative) = false → s = .positive := by
    cases s with
    | positive => exact fun _ => rfl
    | negative => exact fun h => Bool.noConfusion h
  rw [ofFloat?_eq hx] at h
  by_cases hinf : e.toNat = 2047
  · rw [if_pos hinf] at h
    cases h
  · rw [if_neg hinf] at h
    by_cases hzero : e.toNat = 0
    · rw [if_pos hzero] at h
      cases h
      cases hs hsign
      have hunpack := hunpacks.unique (.subnormal (BitVec.eq_of_toNat_eq hzero) (Nat.pos_of_ne_zero hm))
      exact ⟨_, hunpack, canonical_unpack hunpack, by dsimp only; omega⟩
    · rw [if_neg hzero] at h
      cases h
      cases hs hsign
      have hunpack := hunpacks.unique (.normal (fun h => hinf (by rw [h]; rfl))
        (fun h => hzero (by rw [h]; rfl)) (Nat.pos_of_ne_zero hm))
      exact ⟨_, hunpack, canonical_unpack hunpack, by dsimp only; omega⟩

theorem isPositive_pack {m : ℕ} {e : ℤ} (canonical : Canonical m e) (hnormal : 2 ^ 52 ≤ m)
    (he : e ≤ 971) (hm : 0 < m) :
    IsPositive (.ofModel (.pack (.finite .positive m e hm))) m e := by
  have hleast := canonical.least_le
  have hlt := canonical.lt
  have hexponent : (BitVec.ofNat 11 (e + 1075).toNat).toNat = (e + 1075).toNat := by
    rw [BitVec.toNat_ofNat]
    omega
  have hmantissa : (BitVec.ofNat 52 (m - 2 ^ 52)).toNat = m - 2 ^ 52 := by
    rw [BitVec.toNat_ofNat]
    omega
  have hunpacks : Unpacks .positive (BitVec.ofNat 11 (e + 1075).toNat) (BitVec.ofNat 52 (m - 2 ^ 52))
      (.finite .positive m e hm) := by
    have h := Unpacks.normal (s := .positive) (e := BitVec.ofNat 11 (e + 1075).toNat)
      (m := BitVec.ofNat 52 (m - 2 ^ 52)) (fun h => ?_) (fun h => ?_) (by omega)
    · have hm' : 2 ^ 52 + (BitVec.ofNat 52 (m - 2 ^ 52)).toNat = m := by omega
      have he' : ((BitVec.ofNat 11 (e + 1075).toNat).toNat : ℤ) - 1075 = e := by omega
      simpa only [hm', he'] using h
    · have h := congrArg BitVec.toNat h
      rw [hexponent] at h
      change _ = 2047 at h
      omega
    · have h := congrArg BitVec.toNat h
      rw [hexponent] at h
      change _ = 0 at h
      omega
  refine ⟨hm, ?_, canonical, he⟩
  change UnpackedFloat.unpack Format.binary64 (UnpackedFloat.pack Format.binary64 _) = _
  rw [hunpacks.pack (by rintro ⟨⟩)]
  exact (unpacks_bits _ _ _).unique hunpacks

theorem roundsTo_self (m : ℕ) (e : ℤ) : RoundsTo m e (m * 2 ^ e) := by
  have hv : (m : ℚ) * 2 ^ e / 2 ^ e = m := mul_div_cancel_right₀ _ (by positivity)
  have hreach := one_le_reachBelow m e
  constructor <;> rw [hv]
  · linarith
  · linarith
  · exact fun _ => ⟨by linarith, by linarith⟩

namespace IsPositive

variable {x y z : Float} {m m₁ m₂ : ℕ} {e e₁ e₂ : ℤ}

theorem ofModel_pack (h : IsPositive x m e) :
    Float.ofModel (.pack (.finite .positive m e h.pos)) = x := by
  rw [← h.unpack, ofModel_pack_unpack]

theorem mul (hy : IsPositive y m₁ e₁) (hz : IsPositive z m₂ e₂) (hx : IsPositive x m e)
    (room : 2 ^ 52 ≤ m₁) (near : RoundsTo m e (m₁ * 2 ^ e₁ * (m₂ * 2 ^ e₂))) : y * z = x := by
  change Float.ofModel (.pack (UnpackedFloat.mul Format.binary64 _ _)) = x
  rw [hy.unpack, hz.unpack, mul_eq hx.pos hx.canonical hy.pos hz.pos room near, hx.ofModel_pack]

theorem div (hy : IsPositive y m₁ e₁) (hz : IsPositive z m₂ e₂) (hx : IsPositive x m e)
    (near : RoundsTo m e (m₁ * 2 ^ e₁ / (m₂ * 2 ^ e₂))) : y / z = x := by
  change Float.ofModel (.pack (UnpackedFloat.div Format.binary64 _ _)) = x
  rw [hy.unpack, hz.unpack, div_eq hx.pos hx.canonical hy.pos hz.pos near, hx.ofModel_pack]

end IsPositive

/-! Decimals -/

theorem exists_toFloat {n : ℕ} (hn : 0 < n) (hlt : n < 2 ^ 53) :
    ∃ m e, IsPositive n.toUInt64.toFloat m e ∧ (m : ℚ) * 2 ^ e = n ∧ 2 ^ 52 ≤ m := by
  have hlog : n.log2 < 53 := (Nat.log2_lt hn.ne').2 hlt
  have hlow : 2 ^ n.log2 ≤ n := Nat.log2_self_le hn.ne'
  have hhigh : n < 2 ^ (n.log2 + 1) := Nat.lt_log2_self
  obtain ⟨shift, hshift⟩ : ∃ shift, shift = 52 - n.log2 := ⟨_, rfl⟩
  have hlowest : 2 ^ 52 ≤ n * 2 ^ shift := by
    calc 2 ^ 52 = 2 ^ n.log2 * 2 ^ shift := by rw [← Nat.pow_add]; congr 1; omega
      _ ≤ n * 2 ^ shift := Nat.mul_le_mul_right _ hlow
  have hlargest : n * 2 ^ shift < 2 ^ 53 := by
    calc n * 2 ^ shift < 2 ^ (n.log2 + 1) * 2 ^ shift :=
          Nat.mul_lt_mul_of_pos_right hhigh (Nat.two_pow_pos _)
      _ = 2 ^ 53 := by rw [← Nat.pow_add]; congr 1; omega
  have hvalue : ((n * 2 ^ shift : ℕ) : ℚ) * 2 ^ (-shift : ℤ) = n := by
    push_cast
    rw [mul_assoc, ← zpow_natCast, ← zpow_add₀ two_ne_zero]
    simp
  have canonical : Canonical (n * 2 ^ shift) (-shift) := ⟨hlargest, by omega, fun _ => hlowest⟩
  have hm : 0 < n * 2 ^ shift := by omega
  have hexact : Shows (.ofMantissaAndAccuracy (n * 2 ^ shift) .exact)
      (((n * 2 ^ shift : ℕ) : ℚ) * 2 ^ (-shift : ℤ) / 2 ^ (-shift : ℤ)) := by
    rw [mul_div_cancel_right₀ _ (by positivity)]
    exact .whole _
  have hround : UnpackedFloat.round Format.binary64 .positive n 0
      = .finite .positive (n * 2 ^ shift) (-shift) hm := by
    have htarget : (0 - Format.binary64.targetExponent (totalExponent n 0)).toNat = shift := by
      simp only [Format.targetExponent, totalExponent, Format.mantissaBits, Format.minExponent]
      omega
    rw [UnpackedFloat.round, decreaseExponent]
    simp only [htarget, Nat.shiftLeft_eq]
    rw [Int.zero_sub]
    exact roundWithAccuracy_eq .positive hexact (.inr hlowest) hm canonical (roundsTo_self _ _)
  have hconvert : UnpackedFloat.ofUInt64 Format.binary64 n.toUInt64
      = .finite .positive (n * 2 ^ shift) (-shift) hm := by
    have htoNat : n.toUInt64.toNat = n := UInt64.toNat_ofNat_of_lt' (hlt.trans (by decide))
    have hcompare : compare (n : ℤ) 0 = .gt := Int.compare_eq_gt.2 (by omega)
    rw [← hround, UnpackedFloat.ofUInt64, UnpackedFloat.ofNat, UnpackedFloat.ofInt,
      UnpackedFloat.normalize, htoNat, hcompare]
    rfl
  refine ⟨_, _, ?_, hvalue, hlowest⟩
  have hfloat : n.toUInt64.toFloat = .ofModel (.pack (.finite .positive _ (-shift) hm)) := by
    rw [← hconvert]
    rfl
  rw [hfloat]
  exact isPositive_pack canonical hlowest (by omega) hm

theorem exists_powerOfTen (k : ℕ) (hk : k < 23) : ∃ m e,
    IsPositive Float.exactlyRepresentablePowersOfTen[k] m e ∧ (m : ℚ) * 2 ^ e = 10 ^ k := by
  have htable : ∀ k : Fin 23, ((FloatParts.ofFloat? Float.exactlyRepresentablePowersOfTen[k]).any
      fun p => !p.negative && p.mantissa != 0 &&
        p.mantissa * 2 ^ p.exponent.toNat == 10 ^ (k : ℕ) * 2 ^ (-p.exponent).toNat) = true := by
    decide +kernel
  have hentry := htable ⟨k, hk⟩
  rw [Option.any_eq_true] at hentry
  obtain ⟨p, hp, hentry⟩ := hentry
  simp only [Bool.and_eq_true, Bool.not_eq_true', bne_iff_ne, ne_eq, beq_iff_eq] at hentry
  obtain ⟨⟨hsign, hm⟩, hvalue⟩ := hentry
  refine ⟨p.mantissa, p.exponent, isPositive_of_parts hp hsign hm, ?_⟩
  have hexponent : p.exponent = p.exponent.toNat - ((-p.exponent).toNat : ℤ) := by omega
  rw [hexponent, zpow_sub₀ two_ne_zero, zpow_natCast, zpow_natCast, ← mul_div_assoc,
    div_eq_iff (by positivity)]
  exact_mod_cast hvalue

namespace RoundsTo

variable {m : ℕ} {e : ℤ} {v : ℚ}

theorem le_of_pos (h : RoundsTo m e v) (hm : 0 < m) : 2 ^ (e - 1) ≤ v := by
  have low := h.low
  have hone : (1 : ℚ) ≤ m := by exact_mod_cast hm
  have hreach := reachBelow_le m e
  have hhalf : (2 : ℚ)⁻¹ ≤ v / 2 ^ e := by linarith
  rw [zpow_sub_one₀ two_ne_zero, mul_comm, ← div_zpow_mul v e]
  exact mul_le_mul_of_nonneg_right hhalf (by positivity)

theorem lt_of_canonical (h : RoundsTo m e v) (canonical : Canonical m e) : v < 2 ^ (e + 53) := by
  have high := h.high
  have hm : (m : ℚ) + 1 ≤ 2 ^ 53 := by exact_mod_cast canonical.lt
  have hlt : v / 2 ^ e < 2 ^ 53 := by linarith
  rw [add_comm, zpow_add₀ two_ne_zero, ← div_zpow_mul v e]
  exact mul_lt_mul_of_pos_right (by exact_mod_cast hlt) (by positivity)

end RoundsTo

namespace IsPositive

variable {x : Float} {m n : ℕ} {e : ℤ} (h : IsPositive x m e)
include h

theorem exponent_le {k : ℕ} (hn : 0 < n) (near : RoundsTo m e (n * 10 ^ k)) : k ≤ 2 ^ 11 := by
  have hlt := near.lt_of_canonical h.canonical
  have hle := h.le
  have hone : (1 : ℚ) ≤ n := by exact_mod_cast hn
  have hpow : (2 : ℚ) ^ (k : ℤ) < 2 ^ (e + 53) := by
    calc (2 : ℚ) ^ (k : ℤ) = 2 ^ k := zpow_natCast ..
      _ ≤ 10 ^ k := by gcongr; norm_num
      _ ≤ n * 10 ^ k := le_mul_of_one_le_left (by positivity) hone
      _ < 2 ^ (e + 53) := hlt
  rw [zpow_lt_iff] at hpow
  omega

theorem le_exponent {k : ℕ} (near : RoundsTo m e (n / 10 ^ k)) : k ≤ 2 ^ 11 + n.log2 := by
  have hge := near.le_of_pos h.pos
  have hleast := h.canonical.least_le
  have hlog : (n : ℚ) < 2 ^ (n.log2 + 1) := by exact_mod_cast Nat.lt_log2_self
  have hpow : (2 : ℚ) ^ (e - 1) < 2 ^ ((n.log2 : ℤ) + 1 - k) := by
    calc (2 : ℚ) ^ (e - 1) ≤ n / 10 ^ k := hge
      _ ≤ n / 2 ^ k := by gcongr; norm_num
      _ < 2 ^ (n.log2 + 1) / 2 ^ k := by gcongr
      _ = 2 ^ ((n.log2 : ℤ) + 1 - k) := by rw [zpow_sub₀ two_ne_zero]; norm_cast
  rw [zpow_lt_iff] at hpow
  omega

theorem pos_of_near {v : ℚ} (near : RoundsTo m e v) : 0 < v :=
  lt_of_lt_of_le (by positivity) (near.le_of_pos h.pos)

theorem ofScientific_false {k : ℕ} (near : RoundsTo m e (n * 10 ^ k)) :
    Float.ofScientific n false k = x := by
  have hn : 0 < n := by
    refine Nat.pos_of_ne_zero fun hn => ?_
    have hpos := h.pos_of_near near
    simp [hn] at hpos
  rw [Float.ofScientific]
  split
  next hfast =>
    obtain ⟨m₁, e₁, hnumber, hvalue, room⟩ := exists_toFloat hn hfast.1
    obtain ⟨m₂, e₂, hpower, hvalue'⟩ := exists_powerOfTen k (by omega)
    exact hnumber.mul hpower h room (by rwa [hvalue, hvalue'])
  next =>
    have hle := h.exponent_le hn near
    have hmul : UnpackedFloat.ofScientific Format.binary64 n k = .finite .positive m e h.pos := by
      rw [UnpackedFloat.ofScientific, dif_neg hn.ne', if_neg (by change ¬ (k : ℤ) > 2 ^ 11; omega),
        if_neg (by change ¬ (k : ℤ) < -(2 ^ 11 + _); omega), if_pos (by omega)]
      refine mul_eq h.pos h.canonical _ _ ?_ ?_
      · change 2 ^ 52 ≤ n <<< 53
        rw [Nat.shiftLeft_eq]
        omega
      · have hv : ((n <<< 53 : ℕ) : ℚ) * 2 ^ (-53 : ℤ) * ((10 ^ (k : ℤ).toNat : ℕ) * 2 ^ (0 : ℤ))
            = n * 10 ^ k := by
          rw [Nat.shiftLeft_eq, Int.toNat_natCast, zpow_zero, zpow_neg]
          push_cast
          field_simp
        exact hv.symm ▸ near
    change Float.ofModel (.pack (UnpackedFloat.ofScientific Format.binary64 n k)) = x
    rw [hmul, h.ofModel_pack]

theorem ofScientific_true {k : ℕ} (hk : 0 < k) (near : RoundsTo m e (n / 10 ^ k)) :
    Float.ofScientific n true k = x := by
  have hn : 0 < n := by
    refine Nat.pos_of_ne_zero fun hn => ?_
    have hpos := h.pos_of_near near
    simp [hn] at hpos
  rw [Float.ofScientific]
  split
  next hfast =>
    obtain ⟨m₁, e₁, hnumber, hvalue, -⟩ := exists_toFloat hn hfast.1
    obtain ⟨m₂, e₂, hpower, hvalue'⟩ := exists_powerOfTen k (by omega)
    exact hnumber.div hpower h (by rwa [hvalue, hvalue'])
  next =>
    have hle := h.le_exponent near
    have hdiv : UnpackedFloat.ofScientific Format.binary64 n (Int.negOfNat k)
        = .finite .positive m e h.pos := by
      have hneg : Int.negOfNat k = -k := Int.negOfNat_eq
      rw [hneg, UnpackedFloat.ofScientific, dif_neg hn.ne',
        if_neg (by change ¬ (-k : ℤ) > 2 ^ 11; omega),
        if_neg (by change ¬ (-k : ℤ) < -(2 ^ 11 + _); omega), if_neg (by omega)]
      refine div_eq h.pos h.canonical _ _ ?_
      have hv : (n : ℚ) * 2 ^ (0 : ℤ) / ((10 ^ (- -(k : ℤ)).toNat : ℕ) * 2 ^ (0 : ℤ)) = n / 10 ^ k := by
        rw [Int.neg_neg, Int.toNat_natCast, zpow_zero]
        push_cast
        norm_num
      exact hv.symm ▸ near
    change Float.ofModel (.pack (UnpackedFloat.ofScientific Format.binary64 n (Int.negOfNat k))) = x
    rw [hdiv, h.ofModel_pack]

end IsPositive

end Double

end PrefixCalculus
