import PrefixCalculus.Proofs.Doubles
set_option autoImplicit false

/-!
Arithmetic with zero and one. Division by one, multiplication by one and subtraction of zero change
nothing; addition to zero changes nothing and subtraction from zero is negation, but for the sign of a
zero. Main statements: these five, and that a double is told from every other by a comparison with it
and a comparison of the reciprocals.
-/

namespace PrefixCalculus

namespace Double

open Float.Model Float.Model.UnpackedFloat

/-! What a double holds determines it -/

@[simp] theorem ofModel_pack_unpack (x : Float) : Float.ofModel (.pack x.toModel.unpack) = x :=
  eq_of_bits (pack_unpack_of_valid x.toModel.valid)

theorem eq_of_unpack {x y : Float} (h : x.toModel.unpack = y.toModel.unpack) : x = y := by
  rw [← ofModel_pack_unpack x, h, ofModel_pack_unpack]

theorem unpack_zero : (0.0 : Float).toModel.unpack = .zero .positive :=
  (fields_of_bits (x := 0.0) (s := .positive) (e := 0#11) (m := 0#52) (by decide)).unpacks.unique
    (.zero rfl rfl)

theorem unpack_negZero : (-0.0 : Float).toModel.unpack = .zero .negative := by
  rw [unpack_neg, unpack_zero]
  rfl

theorem unpack_one : (1.0 : Float).toModel.unpack = .finite .positive (2 ^ 52) (-52) (by decide) :=
  (fields_of_bits (x := 1.0) (s := .positive) (e := 1023#11) (m := 0#52) (by decide)).unpacks.unique
    (.normal (by decide) (by decide) (by decide))

theorem targetExponent_unpack {x : Float} {s : Sign} {m : Nat} {e : Int} {hm : 0 < m}
    (h : x.toModel.unpack = .finite s m e hm) :
    Format.binary64.targetExponent (totalExponent m e) = e := by
  obtain ⟨s', e', m', -, hu⟩ := exists_fields x
  rw [h] at hu
  simp only [Format.targetExponent, totalExponent, Format.mantissaBits, Format.minExponent]
  cases hu with
  | subnormal he hm =>
    have hlog : m'.toNat.log2 < 52 := (Nat.log2_lt (by omega)).2 m'.isLt
    omega
  | normal hinf hzero hm =>
    have hlt := m'.isLt
    have hpos : 0 < e'.toNat := Nat.pos_of_ne_zero fun h => hzero (BitVec.eq_of_toNat_eq h)
    have hlog : (2 ^ 52 + m'.toNat).log2 = 52 := by
      rw [Nat.log2_eq_iff (by omega)]
      omega
    omega

/-! Division by one -/

theorem shiftRight_exact (m shift : Nat) :
    (⟨m * 2 ^ shift, false, false⟩ : ExtendedMantissa) >>> shift = ⟨m, false, false⟩ := by
  induction shift generalizing m with
  | zero =>
    rw [Nat.pow_zero, Nat.mul_one]
    rfl
  | succ shift ih =>
    have hpow : m * 2 ^ (shift + 1) = 2 * m * 2 ^ shift := by
      rw [Nat.pow_succ, Nat.mul_comm 2 m, Nat.mul_assoc, Nat.mul_comm 2]
    rw [hpow]
    change ((⟨2 * m * 2 ^ shift, false, false⟩ : ExtendedMantissa) >>> shift).shiftRightOne = _
    rw [ih (2 * m)]
    simp [ExtendedMantissa.shiftRightOne]

theorem log2_mul_two_pow {m : Nat} (hm : 0 < m) (shift : Nat) :
    (m * 2 ^ shift).log2 = m.log2 + shift := by
  induction shift with
  | zero => rw [Nat.pow_zero, Nat.mul_one, Nat.add_zero]
  | succ shift ih =>
    have hpos : m * 2 ^ shift ≠ 0 := Nat.pos_iff_ne_zero.1 (Nat.mul_pos hm (Nat.two_pow_pos shift))
    rw [Nat.pow_succ, ← Nat.mul_assoc, Nat.mul_comm _ 2, Nat.log2_two_mul hpos, ih, Nat.add_assoc]

theorem shiftToTargetExponent_exact {m : Nat} {e : Int} (hm : 0 < m)
    (he : Format.binary64.targetExponent (totalExponent m e) = e) (shift : Nat) :
    shiftToTargetExponent Format.binary64 (m * 2 ^ shift) (e - shift) .exact
      = (⟨m, false, false⟩, e) := by
  have htotal : totalExponent (m * 2 ^ shift) (e - shift) = totalExponent m e := by
    rw [totalExponent, totalExponent, log2_mul_two_pow hm]
    omega
  have hshift : (e - (e - shift)).toNat = shift := by omega
  have hback : e - shift + (shift : Int) = e := by omega
  simp only [shiftToTargetExponent, shiftToExponent, htotal, he, hshift, hback,
    ExtendedMantissa.ofMantissaAndAccuracy, shiftRight_exact]

theorem roundWithAccuracy_exact (s : Sign) {m : Nat} {e : Int} (hm : 0 < m)
    (he : Format.binary64.targetExponent (totalExponent m e) = e) (shift : Nat) :
    roundWithAccuracy Format.binary64 s (m * 2 ^ shift) (e - shift) .exact = .finite s m e hm := by
  have hfirst := shiftToTargetExponent_exact hm he shift
  have hsecond := shiftToTargetExponent_exact hm he 0
  simp only [Nat.pow_zero, Nat.mul_one, Int.natCast_zero, Int.sub_zero] at hsecond
  simp only [roundWithAccuracy, hfirst, ExtendedMantissa.roundedMantissa, ExtendedMantissa.accuracy,
    Accuracy.roundToNearestEven, hsecond]
  rw [dif_neg (by omega)]

theorem divCore_one {m : Nat} {e : Int}
    (he : Format.binary64.targetExponent (totalExponent m e) = e) :
    ∃ shift : Nat, divCore Format.binary64 m e (2 ^ 52) (-52) = (m * 2 ^ shift, e - shift, .exact) := by
  have hlog : (2 ^ 52 : Nat).log2 = 52 := by decide
  simp only [Format.targetExponent, totalExponent, Format.mantissaBits, Format.minExponent] at he
  have htarget : ∃ shift : Nat, min (e - -52) (Format.binary64.targetExponent
      (totalExponent m e - totalExponent (2 ^ 52) (-52))) = e - shift := by
    refine ⟨(e - Format.binary64.targetExponent (totalExponent m e - 1)).toNat, ?_⟩
    simp only [Format.targetExponent, totalExponent, Format.mantissaBits, Format.minExponent, hlog]
    omega
  obtain ⟨shift, hshift⟩ := htarget
  refine ⟨shift, ?_⟩
  have hamount : (e - -52 - (e - (shift : Int))).toNat = 52 + shift := by omega
  have hproduct : m <<< (52 + shift) = m * 2 ^ shift * 2 ^ 52 := by
    rw [Nat.shiftLeft_eq, Nat.pow_add, Nat.mul_assoc, Nat.mul_comm (2 ^ 52)]
  simp only [divCore, hshift, hamount, hproduct, accuracyOfFraction, Nat.mul_mod_left, if_true,
    Nat.mul_div_cancel _ (Nat.two_pow_pos 52)]

@[simp] theorem div_one (x : Float) : x / 1.0 = x := by
  have hdiv : UnpackedFloat.div Format.binary64 x.toModel.unpack (1.0 : Float).toModel.unpack
      = x.toModel.unpack := by
    rw [unpack_one]
    cases h : x.toModel.unpack with
    | notANumber => rfl
    | infinity s => cases s <;> rfl
    | zero s => cases s <;> rfl
    | finite s m e hm =>
      have he := targetExponent_unpack h
      obtain ⟨shift, hcore⟩ := divCore_one he
      have hsign : s / Sign.positive = s := by cases s <;> rfl
      simp only [UnpackedFloat.div, hcore, hsign, roundWithAccuracy_exact s hm he shift]
  change Float.ofModel (.pack (UnpackedFloat.div Format.binary64 _ _)) = x
  rw [hdiv, ofModel_pack_unpack]

/-! Subtraction of zero and from zero -/

theorem sub_eq_of_unpack {x y z : Float}
    (h : UnpackedFloat.sub Format.binary64 x.toModel.unpack y.toModel.unpack = z.toModel.unpack) :
    x - y = z := by
  change Float.ofModel (.pack (UnpackedFloat.sub Format.binary64 _ _)) = z
  rw [h, ofModel_pack_unpack]

@[simp] theorem sub_zero (x : Float) : x - 0.0 = x := by
  apply sub_eq_of_unpack
  rw [unpack_zero]
  cases x.toModel.unpack with
  | zero s => cases s <;> rfl
  | _ => rfl

theorem sub_negZero {x : Float} (h : x ≠ -0.0) : x - -0.0 = x := by
  apply sub_eq_of_unpack
  rw [unpack_negZero]
  cases hx : x.toModel.unpack with
  | zero s =>
    cases s with
    | positive => rfl
    | negative => exact absurd (eq_of_unpack (hx.trans unpack_negZero.symm)) h
  | _ => rfl

theorem zero_sub {x : Float} (h : x ≠ 0.0) : 0.0 - x = -x := by
  apply sub_eq_of_unpack
  rw [unpack_zero, unpack_neg]
  cases hx : x.toModel.unpack with
  | zero s =>
    cases s with
    | positive => exact absurd (eq_of_unpack (hx.trans unpack_zero.symm)) h
    | negative => rfl
  | _ => rfl

theorem negZero_sub (x : Float) : -0.0 - x = -x := by
  apply sub_eq_of_unpack
  rw [unpack_negZero, unpack_neg]
  cases x.toModel.unpack with
  | zero s => cases s <;> rfl
  | _ => rfl

/-! Addition to zero and multiplication by one -/

theorem zero_add {x : Float} (h : (x == 0.0) = false) : 0.0 + x = x := by
  have hadd : UnpackedFloat.add Format.binary64 (0.0 : Float).toModel.unpack x.toModel.unpack
      = x.toModel.unpack := by
    rw [unpack_zero]
    cases hx : x.toModel.unpack with
    | zero s =>
      cases s with
      | positive => rfl
      | negative =>
        rw [eq_of_unpack (hx.trans unpack_negZero.symm)] at h
        exact absurd h (by decide)
    | _ => rfl
  change Float.ofModel (.pack (UnpackedFloat.add Format.binary64 _ _)) = x
  rw [hadd, ofModel_pack_unpack]

@[simp] theorem one_mul (x : Float) : 1.0 * x = x := by
  have hmul : UnpackedFloat.mul Format.binary64 (1.0 : Float).toModel.unpack x.toModel.unpack
      = x.toModel.unpack := by
    rw [unpack_one]
    cases h : x.toModel.unpack with
    | notANumber => rfl
    | infinity s => cases s <;> rfl
    | zero s => cases s <;> rfl
    | finite s m e hm =>
      have hround := roundWithAccuracy_exact s hm (targetExponent_unpack h) 52
      have hexp : -52 + e = e - (52 : Nat) := by omega
      have hsign : Sign.positive * s = s := by cases s <;> rfl
      simp only [UnpackedFloat.mul, hsign, hexp, Nat.mul_comm _ m, hround]
  change Float.ofModel (.pack (UnpackedFloat.mul Format.binary64 _ _)) = x
  rw [hmul, ofModel_pack_unpack]

/-! Comparison -/

theorem beq_self {x : Float} (h : x.isNaN = false) : (x == x) = true := by
  rw [Float.isNaN_eq_decide_eq_nan, decide_eq_false_iff_not] at h
  exact Float.beq_self_iff.2 h

theorem nan_beq (x : Float) : (nan == x) = false := by
  rw [Bool.eq_false_iff]
  intro h
  exact (Float.beq_iff_ne_nan_and_eq.1 h).1 (by decide)

theorem eq_or_zeros_of_beq {x y : Float} (h : (x == y) = true) :
    x = y ∨ (x = 0.0 ∧ y = -0.0) ∨ (x = -0.0 ∧ y = 0.0) := by
  have hzero : (0 : Float) = 0.0 := by decide
  have hcases := (Float.beq_iff_ne_nan_and_eq.1 h).2.2
  rwa [hzero] at hcases

theorem eq_of_beq_of_ne_zero {x y : Float} (h : (x == y) = true) (hpos : y ≠ 0.0)
    (hneg : y ≠ -0.0) : x = y := by
  rcases eq_or_zeros_of_beq h with h | ⟨-, h⟩ | ⟨-, h⟩
  · exact h
  · exact absurd h hneg
  · exact absurd h hpos

/-- A zero subtracted changes nothing, unless both are the negative one. -/
theorem sub_eq_self_iff {x z : Float} (hz : (z == 0.0) = true) :
    x - z = x ↔ (z = -0.0 → x ≠ -0.0) := by
  rcases eq_or_zeros_of_beq hz with rfl | ⟨-, h⟩ | ⟨rfl, -⟩
  · exact iff_of_true (sub_zero x) fun h => absurd h (by decide)
  · exact absurd h (by decide)
  · constructor
    · rintro h - rfl
      exact absurd h (by decide)
    · exact fun h => sub_negZero (h rfl)

theorem sub_eq_neg_iff {y z : Float} (hz : (z == 0.0) = true) :
    z - y = -y ↔ (z = 0.0 → y ≠ 0.0) := by
  rcases eq_or_zeros_of_beq hz with rfl | ⟨-, h⟩ | ⟨rfl, -⟩
  · constructor
    · rintro h - rfl
      exact absurd h (by decide)
    · exact fun h => zero_sub (h rfl)
  · exact absurd h (by decide)
  · exact iff_of_true (negZero_sub y) fun h => absurd h (by decide)

/-- The reciprocals tell the zeros apart. -/
theorem eq_of_beq_of_recip {x y : Float} (h : (x == y) = true)
    (hrecip : (1.0 / x == 1.0 / y) = true) : x = y := by
  rcases eq_or_zeros_of_beq h with h | ⟨rfl, rfl⟩ | ⟨rfl, rfl⟩
  · exact h
  · exact absurd hrecip (by decide)
  · exact absurd hrecip (by decide)

theorem exists_bits_pack {u : UnpackedFloat} (h : u.isNaN = false) :
    ∃ s e m, UnpackedFloat.pack Format.binary64 u = bits s e m ∧ (e = -1#11 → m = 0#52) := by
  cases u with
  | notANumber => cases h
  | infinity s => exact ⟨s, -1#11, 0#52, rfl, fun _ => rfl⟩
  | zero s => exact ⟨s, 0#11, 0#52, rfl, fun _ => rfl⟩
  | finite s m e hm =>
    rw [UnpackedFloat.pack]
    split
    · exact ⟨s, -1#11, 0#52, rfl, fun _ => rfl⟩
    · rename_i hexp
      split
      · refine ⟨s, _, _, rfl, fun he => ?_⟩
        have hfield := congrArg BitVec.toNat he
        rw [BitVec.toNat_ofNat] at hfield
        change _ % 2 ^ 11 = 2047 at hfield
        change ¬ 2 ^ 11 ≤ _ at hexp
        omega
      · exact ⟨s, 0#11, _, rfl, fun he => absurd he (by decide)⟩

theorem isNaN_ofModel_pack {u : UnpackedFloat} (h : u.isNaN = false) :
    (Float.ofModel (.pack u)).isNaN = false := by
  obtain ⟨s, e, m, hbits, hfields⟩ := exists_bits_pack h
  change (UnpackedFloat.unpack Format.binary64 (UnpackedFloat.pack Format.binary64 u)).isNaN = false
  rw [hbits]
  have hu := unpacks_bits s e m
  generalize UnpackedFloat.unpack Format.binary64 (bits s e m) = v at hu
  cases hu with
  | nan he hm => exact absurd (hfields he) hm
  | _ => rfl

theorem isNaN_recip {x : Float} (h : x.isNaN = false) : (1.0 / x).isNaN = false := by
  refine isNaN_ofModel_pack ?_
  rw [unpack_one]
  change x.toModel.unpack.isNaN = false at h
  cases hu : x.toModel.unpack with
  | notANumber => rw [hu] at h; cases h
  | infinity s => rfl
  | zero s => rfl
  | finite s m e hm =>
    simp only [UnpackedFloat.div, roundWithAccuracy]
    split <;> rfl

end Double

end PrefixCalculus
