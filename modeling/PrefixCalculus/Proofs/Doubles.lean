import Mathlib
import PrefixCalculus.Decimal.Text
set_option autoImplicit false

/-!
Doubles by sign, exponent field and mantissa field. Main statements: negation changes the sign and
nothing else, twice negated a double is itself, and there is one NaN and one infinity of each sign.
-/

namespace PrefixCalculus

namespace Double

open Float.Model Float.Model.UnpackedFloat

abbrev bits (s : Sign) (e : BitVec 11) (m : BitVec 52) : BitVec 64 :=
  packComponents Format.binary64 s e m

theorem toNat_bits (s : Sign) (e : BitVec 11) (m : BitVec 52) :
    (bits s e m).toNat = s.toBitVec.toNat * 2 ^ 63 + e.toNat * 2 ^ 52 + m.toNat := by
  have hm := m.isLt
  have he := e.isLt
  simp only [bits, packComponents, BitVec.toNat_append]
  rw [← Nat.shiftLeft_add_eq_or_of_lt hm, ← Nat.shiftLeft_add_eq_or_of_lt he]
  simp only [Nat.shiftLeft_eq]
  omega

theorem exists_bits (b : BitVec 64) : ∃ s e m, b = bits s e m :=
  ⟨_, _, _,
    (@packComponents_unpackSign_unpackExponent_unpackMantissa Format.binary64 b).symm⟩

/-- The datum with the fields. -/
inductive Unpacks (s : Sign) (e : BitVec 11) (m : BitVec 52) : UnpackedFloat → Prop
  | nan (he : e = -1#11) (hm : m ≠ 0#52) : Unpacks s e m .notANumber
  | infinity (he : e = -1#11) (hm : m = 0#52) : Unpacks s e m (.infinity s)
  | zero (he : e = 0#11) (hm : m = 0#52) : Unpacks s e m (.zero s)
  | subnormal (he : e = 0#11) (hm : 0 < m.toNat) : Unpacks s e m (.finite s m.toNat (-1074) hm)
  | normal (hinf : e ≠ -1#11) (hzero : e ≠ 0#11) (hm : 0 < 2 ^ 52 + m.toNat) :
      Unpacks s e m (.finite s (2 ^ 52 + m.toNat) (e.toNat - 1075) hm)

theorem unpacks_bits (s : Sign) (e : BitVec 11) (m : BitVec 52) :
    Unpacks s e m (UnpackedFloat.unpack Format.binary64 (bits s e m)) := by
  have happ : (1#1 ++ m).toNat = 2 ^ 52 + m.toNat := by
    rw [BitVec.toNat_append, ← Nat.shiftLeft_add_eq_or_of_lt m.isLt]
    simp [Nat.shiftLeft_eq]
  have hm : @unpackMantissa Format.binary64 (bits s e m) = m :=
    @unpackMantissa_packComponents Format.binary64 s e m
  have he : @unpackExponent Format.binary64 (bits s e m) = e :=
    @unpackExponent_packComponents Format.binary64 s e m
  have hs : @unpackSign Format.binary64 (bits s e m) = s.toBitVec :=
    @unpackSign_packComponents Format.binary64 s e m
  have hbias : Format.binary64.exponentBias = 1023 := by decide
  simp only [UnpackedFloat.unpack, hm, he, hs, Sign.ofBitVec_toBitVec, happ, hbias]
  by_cases hinf : e = -1#11
  · rw [if_pos hinf]
    by_cases hzero : m = 0#52
    · rw [if_pos hzero]
      exact .infinity hinf hzero
    · rw [if_neg hzero]
      exact .nan hinf hzero
  · rw [if_neg hinf]
    by_cases hsub : e = 0#11
    · rw [if_pos hsub]
      by_cases hzero : m = 0#52
      · rw [dif_pos hzero]
        exact .zero hsub hzero
      · rw [dif_neg hzero]
        subst hsub
        exact .subnormal rfl _
    · rw [if_neg hsub]
      have hexp : (e.toNat : Int) - ((1023 : Nat) + (52 : Nat)) = e.toNat - 1075 := by omega
      simp only [hexp]
      exact .normal hinf hsub _

theorem Unpacks.neg {s : Sign} {e : BitVec 11} {m : BitVec 52} {u : UnpackedFloat}
    (h : Unpacks s e m u) : Unpacks (-s) e m u.neg := by
  cases h with
  | nan he hm => exact .nan he hm
  | infinity he hm => exact .infinity he hm
  | zero he hm => exact .zero he hm
  | subnormal he hm => exact .subnormal he hm
  | normal hinf hzero hm => exact .normal hinf hzero hm

theorem Unpacks.unique {s : Sign} {e : BitVec 11} {m : BitVec 52} {u v : UnpackedFloat}
    (h : Unpacks s e m u) (h' : Unpacks s e m v) : u = v := by
  have hne : (0#11 : BitVec 11) ≠ -1#11 := by decide
  have hzero : ¬ (m = 0#52 ∧ 0 < m.toNat) := by
    rintro ⟨rfl, h⟩
    exact absurd h (by decide)
  cases h <;> cases h' <;>
    first
      | rfl
      | exact absurd ⟨‹m = 0#52›, ‹0 < m.toNat›⟩ hzero
      | simp_all

theorem Unpacks.pack {s : Sign} {e : BitVec 11} {m : BitVec 52} {u : UnpackedFloat}
    (h : Unpacks s e m u) (hnan : u ≠ .notANumber) :
    UnpackedFloat.pack Format.binary64 u = bits s e m := by
  have hbits : @isNaNBits Format.binary64 (bits s e m) = false := by
    rw [isNaNBits, decide_eq_false_iff_not]
    rintro ⟨he, hm⟩
    rw [unpackExponent_packComponents] at he
    rw [unpackMantissa_packComponents] at hm
    exact hnan (h.unique (.nan he hm))
  rw [h.unique (unpacks_bits s e m), pack_unpack, hbits]
  rfl

/-! The fields of a double -/

theorem eq_of_bits {x y : Float} (h : x.toBits.toBitVec = y.toBits.toBitVec) : x = y :=
  Float.toBits_inj.1 (UInt64.toBitVec_inj.1 h)

structure Fields (x : Float) (s : Sign) (e : BitVec 11) (m : BitVec 52) : Prop where
  bits_eq : x.toBits.toBitVec = bits s e m
  unpacks : Unpacks s e m x.toModel.unpack

theorem exists_fields (x : Float) : ∃ s e m, Fields x s e m := by
  obtain ⟨s, e, m, h⟩ := exists_bits x.toBits.toBitVec
  refine ⟨s, e, m, h, ?_⟩
  have hunpack : x.toModel.unpack = UnpackedFloat.unpack Format.binary64 x.toBits.toBitVec := rfl
  rw [hunpack, h]
  exact unpacks_bits s e m

theorem fields_of_bits {x : Float} {s : Sign} {e : BitVec 11} {m : BitVec 52}
    (h : x.toBits.toBitVec = bits s e m) : Fields x s e m := by
  refine ⟨h, ?_⟩
  have hunpack : x.toModel.unpack = UnpackedFloat.unpack Format.binary64 x.toBits.toBitVec := rfl
  rw [hunpack, h]
  exact unpacks_bits s e m

theorem isNaN_iff {x : Float} : x.isNaN = true ↔ x.toModel.unpack = .notANumber :=
  UnpackedFloat.isNaN_iff

/-- There is one NaN. -/
theorem eq_nan_of_isNaN {x : Float} (h : x.isNaN = true) : x = nan := by
  rw [Float.isNaN_eq_decide_eq_nan, decide_eq_true_eq] at h
  rw [h]
  decide

theorem fields_neg {x : Float} {s : Sign} {e : BitVec 11} {m : BitVec 52} (h : Fields x s e m)
    (hnan : x.isNaN = false) : Fields (-x) (-s) e m := by
  apply fields_of_bits
  have hu := h.unpacks.neg
  have hne : x.toModel.unpack.neg ≠ .notANumber := by
    have hx : x.toModel.unpack ≠ .notANumber := by
      intro hx
      rw [isNaN_iff.2 hx] at hnan
      cases hnan
    cases hd : x.toModel.unpack <;> simp_all [UnpackedFloat.neg]
  exact hu.pack hne

/-! Negation -/

theorem unpack_neg (x : Float) : (-x).toModel.unpack = x.toModel.unpack.neg := by
  cases hnan : x.isNaN with
  | true =>
    rw [eq_nan_of_isNaN hnan, isNaN_iff.1 (by decide : nan.isNaN = true)]
    exact isNaN_iff.1 (by decide : (-nan).isNaN = true)
  | false =>
    obtain ⟨s, e, m, h⟩ := exists_fields x
    exact (fields_neg h hnan).unpacks.unique h.unpacks.neg

theorem isNaN_neg (x : Float) : (-x).isNaN = x.isNaN := by
  change (-x).toModel.unpack.isNaN = x.toModel.unpack.isNaN
  rw [unpack_neg]
  cases x.toModel.unpack <;> rfl

@[simp] theorem isInf_neg (x : Float) : (-x).isInf = x.isInf := by
  change (-x).toModel.unpack.isInf = x.toModel.unpack.isInf
  rw [unpack_neg]
  cases x.toModel.unpack <;> rfl

@[simp] theorem abs_neg (x : Float) : (-x).abs = x.abs := by
  have h : (-x).toModel.unpack.abs = x.toModel.unpack.abs := by
    rw [unpack_neg]
    cases x.toModel.unpack <;> rfl
  change Float.ofModel (.pack (-x).toModel.unpack.abs) = Float.ofModel (.pack x.toModel.unpack.abs)
  rw [h]

@[simp] theorem neg_bne_zero (x : Float) : (-x != 0.0) = (x != 0.0) := by
  have hzero : (0.0 : Float).toModel.unpack = .zero .positive :=
    (fields_of_bits (x := 0.0) (s := .positive) (e := 0#11) (m := 0#52) (by decide)).unpacks.unique
      (.zero rfl rfl)
  have hbeq : ∀ y : Float, (y == 0.0) = y.toModel.unpack.beq (.zero .positive) := by
    intro y
    rw [← hzero]
    rfl
  rw [bne, bne, hbeq, hbeq, unpack_neg]
  congr 1
  cases x.toModel.unpack with
  | finite s => cases s <;> rfl
  | infinity s => cases s <;> rfl
  | _ => rfl

@[simp] theorem neg_neg (x : Float) : - -x = x := by
  cases hnan : x.isNaN with
  | true =>
    rw [eq_nan_of_isNaN hnan]
    decide
  | false =>
    obtain ⟨s, e, m, h⟩ := exists_fields x
    have hback := fields_neg (fields_neg h hnan) (by rw [isNaN_neg, hnan])
    have hsign : - -s = s := by cases s <;> rfl
    rw [hsign] at hback
    exact eq_of_bits (hback.bits_eq.trans h.bits_eq.symm)

theorem eq_infinity_of_isInf {x : Float} (h : x.isInf = true) : x = infinity ∨ x = -infinity := by
  obtain ⟨s, e, m, hbits, hu⟩ := exists_fields x
  have hinf : x.toModel.unpack.isInf = true := h
  cases hd : x.toModel.unpack <;> rw [hd] at hinf hu <;> try cases hinf
  cases hu with
  | infinity he hm =>
    subst he hm
    cases s with
    | positive => exact .inl (eq_of_bits (hbits.trans (by decide)))
    | negative => exact .inr (eq_of_bits (hbits.trans (by decide)))

theorem toNat_toBits {x : Float} {s : Sign} {e : BitVec 11} {m : BitVec 52} (h : Fields x s e m) :
    x.toBits.toNat = s.toBitVec.toNat * 2 ^ 63 + e.toNat * 2 ^ 52 + m.toNat := by
  rw [← toNat_bits, ← h.bits_eq]
  rfl

theorem signBit_eq {x : Float} {s : Sign} {e : BitVec 11} {m : BitVec 52} (h : Fields x s e m) :
    signBit x = (!x.isNaN && s == .negative) := by
  have hm := m.isLt
  have he := e.isLt
  rw [signBit, toNat_toBits h]
  congr 1
  cases s
  · have hone : ((1 * 2 ^ 63 + e.toNat * 2 ^ 52 + m.toNat) / Nat.pow 2 63 == 1) = true := by
      rw [beq_iff_eq]
      change _ / 2 ^ 63 = 1
      omega
    exact hone
  · have hzero : ((0 * 2 ^ 63 + e.toNat * 2 ^ 52 + m.toNat) / Nat.pow 2 63 == 1) = false := by
      rw [beq_eq_false_iff_ne]
      change ¬ _ / 2 ^ 63 = 1
      omega
    exact hzero

@[simp] theorem signBit_neg {x : Float} (hnan : x.isNaN = false) : signBit (-x) = !signBit x := by
  obtain ⟨s, e, m, h⟩ := exists_fields x
  rw [signBit_eq h, signBit_eq (fields_neg h hnan), isNaN_neg, hnan]
  cases s <;> rfl

theorem ofFloat?_eq {x : Float} {s : Sign} {e : BitVec 11} {m : BitVec 52} (h : Fields x s e m) :
    FloatParts.ofFloat? x =
      if e.toNat = 2047 then none
      else if e.toNat = 0 then some ⟨s == .negative, m.toNat, -1074⟩
      else some ⟨s == .negative, 2 ^ 52 + m.toNat, e.toNat - 1075⟩ := by
  have hm := m.isLt
  have he := e.isLt
  have hs : s.toBitVec.toNat ≤ 1 := by cases s <;> decide
  have hbiased : x.toBits.toNat / Nat.pow 2 52 % Nat.pow 2 11 = e.toNat := by
    rw [toNat_toBits h]
    change _ / 2 ^ 52 % 2 ^ 11 = _
    omega
  have hfraction : x.toBits.toNat % Nat.pow 2 52 = m.toNat := by
    rw [toNat_toBits h]
    change _ % 2 ^ 52 = _
    omega
  have hnegative : (x.toBits.toNat / Nat.pow 2 63 == 1) = (s == .negative) := by
    have hdiv : x.toBits.toNat / Nat.pow 2 63 = s.toBitVec.toNat := by
      rw [toNat_toBits h]
      change _ / 2 ^ 63 = _
      omega
    rw [hdiv]
    cases s <;> rfl
  simp only [FloatParts.ofFloat?, hbiased, hfraction, hnegative]
  rfl

theorem exists_parts {x : Float} (hnan : x.isNaN = false) (hinf : x.isInf = false) :
    ∃ p, FloatParts.ofFloat? x = some p ∧ p.negative = signBit x := by
  obtain ⟨s, e, m, h⟩ := exists_fields x
  have he : e.toNat ≠ 2047 := by
    intro he
    have he : e = -1#11 := BitVec.eq_of_toNat_eq he
    by_cases hm : m = 0#52
    · have hu := h.unpacks.unique (.infinity he hm)
      change x.toModel.unpack.isInf = false at hinf
      rw [hu] at hinf
      cases hinf
    · rw [isNaN_iff.2 (h.unpacks.unique (.nan he hm))] at hnan
      cases hnan
  rw [ofFloat?_eq h, if_neg he, signBit_eq h, hnan]
  split <;> exact ⟨_, rfl, by simp⟩

theorem ofFloat?_neg (x : Float) : FloatParts.ofFloat? (-x)
    = (FloatParts.ofFloat? x).map fun p => { p with negative := !p.negative } := by
  cases hnan : x.isNaN with
  | true =>
    rw [eq_nan_of_isNaN hnan]
    decide
  | false =>
    obtain ⟨s, e, m, h⟩ := exists_fields x
    rw [ofFloat?_eq h, ofFloat?_eq (fields_neg h hnan)]
    by_cases hinf : e.toNat = 2047
    · rw [if_pos hinf, if_pos hinf]
      rfl
    · rw [if_neg hinf, if_neg hinf]
      split <;> cases s <;> rfl

/-- A double is NaN, an infinity, or finite without a sign or with one in front. -/
@[elab_as_elim]
theorem sign_cases {motive : Float → Prop} (nan : motive nan)
    (negInfinity : motive (-infinity)) (infinity : motive infinity)
    (unsigned : ∀ x : Float, x.isNaN = false → x.isInf = false → signBit x = false → motive x)
    (signed : ∀ x : Float, x.isNaN = false → x.isInf = false → signBit x = false → motive (-x))
    (x : Float) : motive x := by
  cases hnan : x.isNaN with
  | true => exact eq_nan_of_isNaN hnan ▸ nan
  | false =>
    cases hinf : x.isInf with
    | true =>
      rcases eq_infinity_of_isInf hinf with rfl | rfl
      · exact infinity
      · exact negInfinity
    | false =>
      cases hsign : signBit x with
      | false => exact unsigned x hnan hinf hsign
      | true =>
        obtain ⟨y, rfl⟩ : ∃ y, x = -y := ⟨-x, (neg_neg x).symm⟩
        rw [isNaN_neg] at hnan
        rw [isInf_neg] at hinf
        rw [signBit_neg hnan, Bool.not_eq_true'] at hsign
        exact signed y hnan hinf hsign

end Double

end PrefixCalculus
