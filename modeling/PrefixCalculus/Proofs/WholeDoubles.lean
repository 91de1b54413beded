import PrefixCalculus.Proofs.NearestDouble
set_option autoImplicit false

/-!
Doubles that stand for whole numbers. Up to two to the fifty-third every whole number has a double, so a
sum, a difference, a product or a quotient that is whole and no larger is exact. Main statements: these
four, the comparisons, and that rounding to a whole number changes nothing.
-/

namespace PrefixCalculus

namespace Double

open Float.Model Float.Model.UnpackedFloat

def IsWhole (x : Float) (n : ℕ) : Prop :=
  value? x = some (n : ℚ)

/-! Order -/

theorem StandsFor.compare_swap {u v : UnpackedFloat} {a b : ℚ} (ha : StandsFor u a)
    (hb : StandsFor v b) : ∃ o : Ordering, u.compare v = some o ∧ v.compare u = some o.swap := by
  cases ha <;> cases hb <;> refine ⟨_, rfl, ?_⟩ <;>
    simp [UnpackedFloat.compare, Ordering.swap_then, Int.compare_swap, Nat.compare_swap]

theorem lt_iff {x y : Float} {a b : ℚ} (ha : value? x = some a) (hb : value? y = some b) :
    x < y ↔ a < b := by
  obtain ⟨o, hxy, hyx⟩ := (standsFor_of_value? ha).compare_swap (standsFor_of_value? hb)
  have hlt : x < y ↔ x.toModel.unpack.lt y.toModel.unpack = true := decide_eq_true_iff
  have hle : y ≤ x ↔ y.toModel.unpack.le x.toModel.unpack = true := decide_eq_true_iff
  rw [← not_le, ← le_iff hb ha, hlt, hle, UnpackedFloat.lt, UnpackedFloat.le, hxy, hyx]
  cases o <;> decide

/-! Whole numbers in the format -/

theorem exists_canonical {n : ℕ} (hn : 0 < n) (hle : n ≤ 2 ^ 53) :
    ∃ (m : ℕ) (e : ℤ), Canonical m e ∧ 2 ^ 52 ≤ m ∧ e ≤ 971 ∧ (m : ℚ) * 2 ^ e = n := by
  rcases Nat.lt_or_eq_of_le hle with hlt | rfl
  · obtain ⟨m, e, h, hvalue, room⟩ := exists_toFloat hn hlt
    exact ⟨m, e, h.canonical, room, h.le, hvalue⟩
  · refine ⟨2 ^ 52, 1, ⟨by decide, by decide, fun _ => le_rfl⟩, le_rfl, by decide, ?_⟩
    norm_num

theorem exists_isPositive_whole {n : ℕ} (hn : 0 < n) (hle : n ≤ 2 ^ 53) :
    ∃ (x : Float) (m : ℕ) (e : ℤ), IsPositive x m e ∧ (m : ℚ) * 2 ^ e = n := by
  obtain ⟨m, e, canonical, room, he, hvalue⟩ := exists_canonical hn hle
  exact ⟨_, m, e, isPositive_pack canonical room he (by omega), hvalue⟩

theorem IsPositive.isWhole {x : Float} {m n : ℕ} {e : ℤ} (h : IsPositive x m e)
    (hvalue : (m : ℚ) * 2 ^ e = n) : IsWhole x n := by
  rw [IsWhole, value?, h.unpack, ← hvalue]
  rfl

theorem isWhole_ofNat {n : ℕ} (hle : n ≤ 2 ^ 53) : IsWhole (Float.ofNat n) n := by
  rcases Nat.eq_zero_or_pos n with rfl | hn
  · have hzero : Float.ofNat 0 = 0.0 := by decide
    rw [hzero, IsWhole, value?, unpack_zero]
    rfl
  · obtain ⟨x, m, e, hx, hvalue⟩ := exists_isPositive_whole hn hle
    have near : RoundsTo m e (n * 10 ^ 0) := by
      rw [pow_zero, mul_one, ← hvalue]
      exact roundsTo_self m e
    have hofNat : Float.ofNat n = x := hx.ofScientific_false near
    rw [hofNat]
    exact hx.isWhole hvalue

theorem isWhole_one : IsWhole 1.0 1 := by
  have hone : (1.0 : Float) = Float.ofNat 1 := by decide
  rw [hone]
  exact isWhole_ofNat (by decide)

namespace IsWhole

variable {x y : Float} {a b n : ℕ}

theorem isNaN_eq (h : IsWhole x n) : x.isNaN = false := by
  cases hnan : x.isNaN with
  | false => rfl
  | true =>
    rw [IsWhole, value?, isNaN_iff.1 hnan] at h
    cases h

theorem exists_parts (h : IsWhole x n) :
    ∃ p, FloatParts.ofFloat? x = some p ∧ p.numerator = n * p.denominator := by
  obtain ⟨p, hp, -, -⟩ := exists_parts_of_value? h
  have hvalue := value?_of_parts hp
  have hden : (p.denominator : ℚ) ≠ 0 := by exact_mod_cast p.denominator_pos.ne'
  rw [h, Option.some.injEq, eq_div_iff hden] at hvalue
  exact ⟨p, hp, by exact_mod_cast hvalue.symm⟩

theorem exists_isPositive (h : IsWhole x n) (hn : 0 < n) :
    ∃ (m : ℕ) (e : ℤ), IsPositive x m e ∧ (m : ℚ) * 2 ^ e = n := by
  obtain ⟨p, hp, hnumerator⟩ := h.exists_parts
  have hvalue : (p.signed : ℚ) * 2 ^ p.exponent = n := by
    have hden : (p.denominator : ℚ) ≠ 0 := by exact_mod_cast p.denominator_pos.ne'
    rw [← fraction_eq, div_eq_iff hden]
    exact_mod_cast hnumerator
  have hsigned : 0 < p.signed := by
    by_contra hle
    have hle : (p.signed : ℚ) ≤ 0 := by exact_mod_cast not_lt.1 hle
    have hprod := mul_nonpos_of_nonpos_of_nonneg hle (by positivity : (0 : ℚ) ≤ 2 ^ p.exponent)
    rw [hvalue] at hprod
    have hn : (0 : ℚ) < n := by exact_mod_cast hn
    linarith
  rw [FloatParts.signed] at hsigned hvalue
  cases hnegative : p.negative with
  | true =>
    rw [hnegative, if_pos rfl] at hsigned
    omega
  | false =>
    rw [hnegative, if_neg Bool.false_ne_true] at hsigned hvalue
    exact ⟨_, _, isPositive_of_parts hp hnegative (by omega), by exact_mod_cast hvalue⟩

theorem exists_zero (h : IsWhole x 0) : ∃ s, x.toModel.unpack = .zero s := by
  have hstands := standsFor_of_value? h
  generalize x.toModel.unpack = u at hstands
  generalize hzero : ((0 : ℕ) : ℚ) = q at hstands
  cases hstands with
  | zero s => exact ⟨s, rfl⟩
  | @positive m e hm _ | @negative m e hm _ =>
    have hpos : (0 : ℚ) < m * 2 ^ e := by positivity
    rw [Nat.cast_zero] at hzero
    linarith

end IsWhole

theorem eq_zero_or_negZero {x : Float} {s : Sign} (h : x.toModel.unpack = .zero s) :
    x = 0.0 ∨ x = -0.0 := by
  cases s with
  | positive => exact .inl (eq_of_unpack (h.trans unpack_zero.symm))
  | negative => exact .inr (eq_of_unpack (h.trans unpack_negZero.symm))

theorem isWhole_of_unpack_zero {x : Float} {s : Sign} (h : x.toModel.unpack = .zero s) :
    IsWhole x 0 := by
  rw [IsWhole, value?, h, Nat.cast_zero]
  rfl

/-! Products and quotients -/

/-- The mantissa of a double that is no fraction has all its bits. -/
theorem IsPositive.room {x : Float} {m n : ℕ} {e : ℤ} (h : IsPositive x m e)
    (hvalue : (m : ℚ) * 2 ^ e = n) : 2 ^ 52 ≤ m := by
  refine h.canonical.le (lt_of_not_ge fun hle => ?_)
  have hn : (0 : ℚ) < n := by
    have hm := h.pos
    rw [← hvalue]
    positivity
  have hm : (m : ℚ) < 2 ^ 53 := by exact_mod_cast h.canonical.lt
  have hlt : (n : ℚ) < 1 := by
    calc (n : ℚ) = m * 2 ^ e := hvalue.symm
      _ < 2 ^ 53 * 2 ^ e := by gcongr
      _ ≤ 2 ^ 53 * 2 ^ (-53 : ℤ) := by
        gcongr
        · norm_num
        · omega
      _ = 1 := by norm_num
  have hone : 1 ≤ n := by exact_mod_cast hn
  have hlt : n < 1 := by exact_mod_cast hlt
  omega

namespace IsWhole

variable {x y : Float} {a b : ℕ}

theorem mul (hx : IsWhole x a) (hy : IsWhole y b) (ha : 0 < a) (hb : 0 < b)
    (hle : a * b ≤ 2 ^ 53) : IsWhole (x * y) (a * b) := by
  obtain ⟨m₁, e₁, hx, ha'⟩ := hx.exists_isPositive ha
  obtain ⟨m₂, e₂, hy, hb'⟩ := hy.exists_isPositive hb
  obtain ⟨z, m, e, hz, hvalue⟩ := exists_isPositive_whole (Nat.mul_pos ha hb) hle
  have near : RoundsTo m e (m₁ * 2 ^ e₁ * (m₂ * 2 ^ e₂)) := by
    rw [ha', hb', ← Nat.cast_mul, ← hvalue]
    exact roundsTo_self m e
  rw [hx.mul hy hz (hx.room ha') near]
  exact hz.isWhole hvalue

theorem div (hx : IsWhole x (a * b)) (hy : IsWhole y b) (ha : 0 < a) (hb : 0 < b)
    (hle : a ≤ 2 ^ 53) : IsWhole (x / y) a := by
  obtain ⟨m₁, e₁, hx, hab'⟩ := hx.exists_isPositive (Nat.mul_pos ha hb)
  obtain ⟨m₂, e₂, hy, hb'⟩ := hy.exists_isPositive hb
  obtain ⟨z, m, e, hz, hvalue⟩ := exists_isPositive_whole ha hle
  have near : RoundsTo m e (m₁ * 2 ^ e₁ / (m₂ * 2 ^ e₂)) := by
    have hb : (b : ℚ) ≠ 0 := by exact_mod_cast hb.ne'
    rw [hab', hb', Nat.cast_mul, mul_div_cancel_right₀ _ hb, ← hvalue]
    exact roundsTo_self m e
  rw [hx.div hy hz near]
  exact hz.isWhole hvalue

end IsWhole

/-! Sums and differences -/

/-- Rounding to the nearest double, from any mantissa and exponent. -/
theorem round_eq (s : Sign) {m n : ℕ} {e e' : ℤ} (hm : 0 < m) (canonical : Canonical m e)
    (hn : 0 < n) (near : RoundsTo m e (n * 2 ^ e')) :
    UnpackedFloat.round Format.binary64 s n e' = .finite s m e hm := by
  obtain ⟨shift, hshift⟩ :
      ∃ shift, shift = (e' - Format.binary64.targetExponent (totalExponent n e')).toNat := ⟨_, rfl⟩
  have hscaled : ((n * 2 ^ shift : ℕ) : ℚ) = n * 2 ^ e' / 2 ^ (e' - shift) := by
    rw [zpow_sub₀ two_ne_zero]
    push_cast
    rw [zpow_natCast]
    field_simp
  have hshows : Shows (.ofMantissaAndAccuracy (n * 2 ^ shift) .exact)
      (n * 2 ^ e' / 2 ^ (e' - shift)) := by
    rw [← hscaled]
    exact .whole _
  have hlog : (n * 2 ^ shift).log2 = n.log2 + shift := log2_mul_two_pow hn shift
  have room : e' - shift ≤ -1074 ∨ 2 ^ 52 ≤ n * 2 ^ shift := by
    simp only [Format.targetExponent, totalExponent, Format.mantissaBits, Format.minExponent] at hshift
    rcases le_or_gt (e' - shift) (-1074) with hle | hgt
    · exact .inl hle
    · right
      have hne : n * 2 ^ shift ≠ 0 := (Nat.mul_pos hn (Nat.two_pow_pos shift)).ne'
      rw [← Nat.le_log2 hne, hlog]
      omega
  simp only [UnpackedFloat.round, decreaseExponent, ← hshift, Nat.shiftLeft_eq]
  exact roundWithAccuracy_eq s hshows room hm canonical near

theorem normalize_pos {n : ℕ} (hn : 0 < n) (e : ℤ) (zero : Sign) :
    UnpackedFloat.normalize Format.binary64 n e zero
      = UnpackedFloat.round Format.binary64 .positive n e := by
  have hcompare : compare (n : ℤ) 0 = .gt := Int.compare_eq_gt.2 (by omega)
  rw [UnpackedFloat.normalize, hcompare]
  rfl

theorem decreaseExponent_value (m : ℕ) {e t : ℤ} (h : t ≤ e) :
    ((decreaseExponent m e t).1 : ℚ) * 2 ^ t = m * 2 ^ e := by
  have hexp : e = (e - t).toNat + t := by omega
  simp only [decreaseExponent, Nat.shiftLeft_eq]
  push_cast
  conv_rhs => rw [hexp, zpow_add₀ two_ne_zero, zpow_natCast]
  ring

theorem add_eq {m m₁ m₂ : ℕ} {e e₁ e₂ : ℤ} (hm : 0 < m) (canonical : Canonical m e) (hm₁ : 0 < m₁)
    (hm₂ : 0 < m₂) (near : RoundsTo m e (m₁ * 2 ^ e₁ + m₂ * 2 ^ e₂)) :
    UnpackedFloat.add Format.binary64 (.finite .positive m₁ e₁ hm₁) (.finite .positive m₂ e₂ hm₂)
      = .finite .positive m e hm := by
  obtain ⟨t, ht⟩ : ∃ t, t = min e₁ e₂ := ⟨_, rfl⟩
  have h₁ := decreaseExponent_value m₁ (e := e₁) (t := t) (by omega)
  have h₂ := decreaseExponent_value m₂ (e := e₂) (t := t) (by omega)
  rw [← h₁, ← h₂, ← add_mul, ← Nat.cast_add] at near
  simp only [UnpackedFloat.add, ← ht, Sign.apply, ← Nat.cast_add]
  have hpos : 0 < (decreaseExponent m₁ e₁ t).1 + (decreaseExponent m₂ e₂ t).1 := by
    simp only [decreaseExponent, Nat.shiftLeft_eq]
    positivity
  rw [normalize_pos hpos]
  exact round_eq .positive hm canonical hpos near

theorem sub_eq {m m₁ m₂ : ℕ} {e e₁ e₂ : ℤ} (hm : 0 < m) (canonical : Canonical m e) (hm₁ : 0 < m₁)
    (hm₂ : 0 < m₂) (near : RoundsTo m e (m₁ * 2 ^ e₁ - m₂ * 2 ^ e₂))
    (hlt : (m₂ * 2 ^ e₂ : ℚ) < m₁ * 2 ^ e₁) :
    UnpackedFloat.sub Format.binary64 (.finite .positive m₁ e₁ hm₁) (.finite .positive m₂ e₂ hm₂)
      = .finite .positive m e hm := by
  obtain ⟨t, ht⟩ : ∃ t, t = min e₁ e₂ := ⟨_, rfl⟩
  have h₁ := decreaseExponent_value m₁ (e := e₁) (t := t) (by omega)
  have h₂ := decreaseExponent_value m₂ (e := e₂) (t := t) (by omega)
  have hpow : (0 : ℚ) < 2 ^ t := by positivity
  rw [← h₁, ← h₂, mul_lt_mul_iff_left₀ hpow, Nat.cast_lt] at hlt
  rw [← h₁, ← h₂, ← sub_mul, ← Nat.cast_sub hlt.le] at near
  simp only [UnpackedFloat.sub, ← ht, Sign.apply]
  rw [← Nat.cast_sub hlt.le, normalize_pos (by omega)]
  exact round_eq .positive hm canonical (by omega) near

theorem sub_self_eq {m₁ m₂ : ℕ} {e₁ e₂ : ℤ} (hm₁ : 0 < m₁) (hm₂ : 0 < m₂)
    (heq : (m₁ * 2 ^ e₁ : ℚ) = m₂ * 2 ^ e₂) :
    UnpackedFloat.sub Format.binary64 (.finite .positive m₁ e₁ hm₁) (.finite .positive m₂ e₂ hm₂)
      = .zero .positive := by
  obtain ⟨t, ht⟩ : ∃ t, t = min e₁ e₂ := ⟨_, rfl⟩
  have h₁ := decreaseExponent_value m₁ (e := e₁) (t := t) (by omega)
  have h₂ := decreaseExponent_value m₂ (e := e₂) (t := t) (by omega)
  have hpow : (2 : ℚ) ^ t ≠ 0 := by positivity
  rw [← h₁, ← h₂, mul_left_inj' hpow, Nat.cast_inj] at heq
  simp only [UnpackedFloat.sub, ← ht, Sign.apply, heq, sub_self]
  rfl

namespace IsWhole

variable {x y : Float} {a b : ℕ}

theorem add (hx : IsWhole x a) (hy : IsWhole y b) (hb : 0 < b) (hle : a + b ≤ 2 ^ 53) :
    IsWhole (x + y) (a + b) := by
  obtain ⟨m₂, e₂, hy', hb'⟩ := hy.exists_isPositive hb
  rcases Nat.eq_zero_or_pos a with rfl | ha
  · obtain ⟨s, hzero⟩ := hx.exists_zero
    have hsum : x + y = y := by
      change Float.ofModel (.pack (UnpackedFloat.add Format.binary64 _ _)) = y
      rw [hzero, hy'.unpack]
      exact hy'.ofModel_pack
    rwa [hsum, Nat.zero_add]
  · obtain ⟨m₁, e₁, hx', ha'⟩ := hx.exists_isPositive ha
    obtain ⟨z, m, e, hz, hvalue⟩ := exists_isPositive_whole (Nat.add_pos_left ha b) hle
    have near : RoundsTo m e (m₁ * 2 ^ e₁ + m₂ * 2 ^ e₂) := by
      rw [ha', hb', ← Nat.cast_add, ← hvalue]
      exact roundsTo_self m e
    have hsum : x + y = z := by
      change Float.ofModel (.pack (UnpackedFloat.add Format.binary64 _ _)) = z
      rw [hx'.unpack, hy'.unpack, add_eq hz.pos hz.canonical hx'.pos hy'.pos near, hz.ofModel_pack]
    rw [hsum]
    exact hz.isWhole hvalue

theorem sub_zero (hx : IsWhole x a) (hy : IsWhole y 0) : IsWhole (x - y) a := by
  obtain ⟨t, hy⟩ := hy.exists_zero
  rcases Nat.eq_zero_or_pos a with rfl | ha
  · obtain ⟨s, hx⟩ := hx.exists_zero
    have hdiff : x - y = 0.0 ∨ x - y = -0.0 := by
      rcases eq_zero_or_negZero hx with rfl | rfl <;> rcases eq_zero_or_negZero hy with rfl | rfl <;>
        decide
    rcases hdiff with h | h <;> rw [h]
    · exact isWhole_of_unpack_zero unpack_zero
    · exact isWhole_of_unpack_zero unpack_negZero
  · obtain ⟨m₁, e₁, hx', ha'⟩ := hx.exists_isPositive ha
    have hdiff : x - y = x := by
      change Float.ofModel (.pack (UnpackedFloat.sub Format.binary64 _ _)) = x
      rw [hx'.unpack, hy]
      exact hx'.ofModel_pack
    rwa [hdiff]

theorem sub (hx : IsWhole x a) (hy : IsWhole y b) (hba : b ≤ a) (hle : a ≤ 2 ^ 53) :
    IsWhole (x - y) (a - b) := by
  rcases Nat.eq_zero_or_pos b with rfl | hb
  · exact hx.sub_zero hy
  · obtain ⟨m₁, e₁, hx', ha'⟩ := hx.exists_isPositive (by omega)
    obtain ⟨m₂, e₂, hy', hb'⟩ := hy.exists_isPositive hb
    have hsub : x - y = .ofModel (.pack (UnpackedFloat.sub Format.binary64
        (.finite .positive m₁ e₁ hx'.pos) (.finite .positive m₂ e₂ hy'.pos))) := by
      rw [← hx'.unpack, ← hy'.unpack]
      rfl
    rw [hsub]
    rcases Nat.eq_or_lt_of_le hba with rfl | hlt
    · rw [sub_self_eq hx'.pos hy'.pos (ha'.trans hb'.symm), Nat.sub_self, ← unpack_zero,
        ofModel_pack_unpack]
      exact isWhole_of_unpack_zero unpack_zero
    · obtain ⟨z, m, e, hz, hvalue⟩ := exists_isPositive_whole (Nat.sub_pos_of_lt hlt) (by omega)
      have near : RoundsTo m e (m₁ * 2 ^ e₁ - m₂ * 2 ^ e₂) := by
        rw [ha', hb', ← Nat.cast_sub hba, ← hvalue]
        exact roundsTo_self m e
      rw [sub_eq hz.pos hz.canonical hx'.pos hy'.pos near (by rw [ha', hb']; exact_mod_cast hlt),
        hz.ofModel_pack]
      exact hz.isWhole hvalue

end IsWhole

/-! Rounding to a whole number -/

theorem abs_of_isPositive {x : Float} {m : ℕ} {e : ℤ} (h : IsPositive x m e) : x.abs = x := by
  change Float.ofModel (.pack x.toModel.unpack.abs) = x
  rw [h.unpack]
  exact h.ofModel_pack

theorem signBit_of_isPositive {x : Float} {m : ℕ} {e : ℤ} (h : IsPositive x m e) :
    signBit x = false := by
  obtain ⟨s, e', m', hx⟩ := exists_fields x
  have hunpacks := hx.unpacks
  rw [signBit_eq hx]
  rw [h.unpack] at hunpacks
  cases hunpacks <;> simp

namespace IsWhole

variable {x y : Float} {n : ℕ}

/-- The sign of a zero is no part of the number, and no other whole number changes its sign. -/
theorem copySign (hx : IsWhole x n) (hy : IsWhole y n) : IsWhole (PrefixCalculus.copySign x y) n := by
  rcases Nat.eq_zero_or_pos n with rfl | hn
  · obtain ⟨s, hx⟩ := hx.exists_zero
    have hzero : PrefixCalculus.copySign x y = 0.0 ∨ PrefixCalculus.copySign x y = -0.0 := by
      rw [PrefixCalculus.copySign]
      rcases eq_zero_or_negZero hx with rfl | rfl <;> split <;> decide
    rcases hzero with h | h <;> rw [h]
    · exact isWhole_of_unpack_zero unpack_zero
    · exact isWhole_of_unpack_zero unpack_negZero
  · obtain ⟨m₁, e₁, hx', -⟩ := hx.exists_isPositive hn
    obtain ⟨m₂, e₂, hy', -⟩ := hy.exists_isPositive hn
    rw [PrefixCalculus.copySign, signBit_of_isPositive hy', if_neg Bool.false_ne_true,
      abs_of_isPositive hx']
    exact hx

theorem round (h : IsWhole x n) (hle : n ≤ 2 ^ 53) : IsWhole (PrefixCalculus.round x) n := by
  obtain ⟨p, hp, hnumerator⟩ := h.exists_parts
  have hnearest : p.nearest = n := by
    have hden := p.denominator_pos
    have hsize : (2 * p.numerator.natAbs + p.denominator) / (2 * p.denominator) = n := by
      have habs : p.numerator.natAbs = n * p.denominator := by
        rw [hnumerator, Int.natAbs_mul, Int.natAbs_natCast, Int.natAbs_natCast]
      have hfactor : 2 * (n * p.denominator) + p.denominator = (2 * n + 1) * p.denominator := by ring
      rw [habs, hfactor, Nat.mul_div_mul_right _ _ hden]
      omega
    rw [FloatParts.nearest, hsize]
    cases hnegative : p.negative with
    | false => rfl
    | true =>
      have hle : p.numerator ≤ 0 := by
        rw [FloatParts.numerator, FloatParts.signed, hnegative, if_pos rfl]
        exact mul_nonpos_of_nonpos_of_nonneg (by omega) (by positivity)
      have hzero : n = 0 := by
        rw [hnumerator] at hle
        have hprod : n * p.denominator ≤ 0 := by exact_mod_cast hle
        exact (Nat.mul_eq_zero.1 (Nat.le_zero.1 hprod)).resolve_right hden.ne'
      rw [hzero]
      rfl
  rw [PrefixCalculus.round, toWhole, hp]
  dsimp only
  split
  · exact h
  · rw [hnearest]
    exact (isWhole_ofNat hle).copySign h

end IsWhole

end Double

end PrefixCalculus
