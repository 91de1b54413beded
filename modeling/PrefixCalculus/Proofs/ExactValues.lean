import PrefixCalculus.Proofs.Doubles
set_option autoImplicit false

/-!
The rational number that a double stands for. Every double but NaN and the infinities is one, and its
parts are a fraction for it. Main statements: doubles compare as their numbers do, the whole numbers
next to the parts are the floor and the ceiling of the number, and no floor is the largest 64-bit
integer, since a double of this size is even.
-/

namespace PrefixCalculus

namespace Double

open Float.Model Float.Model.UnpackedFloat

def datumValue? : UnpackedFloat → Option ℚ
  | .zero _ => some 0
  | .finite s m e _ => some (s.apply m * 2 ^ e)
  | _ => none

def value? (x : Float) : Option ℚ :=
  datumValue? x.toModel.unpack

theorem value?_eq_none_iff {x : Float} : value? x = none ↔ x.isFinite = false := by
  change datumValue? x.toModel.unpack = none ↔ x.toModel.unpack.isFinite = false
  cases x.toModel.unpack <;> simp [datumValue?, UnpackedFloat.isFinite]

/-! Comparison -/

/-- The mantissa has at most 53 bits, and as many if the exponent is not the least one. -/
structure Canonical (m : Nat) (e : Int) : Prop where
  lt : m < 2 ^ 53
  least_le : -1074 ≤ e
  le : -1074 < e → 2 ^ 52 ≤ m

theorem canonical_unpack {x : Float} {s : Sign} {m : Nat} {e : Int} {hm : 0 < m}
    (h : x.toModel.unpack = .finite s m e hm) : Canonical m e := by
  obtain ⟨s', e', m', hx⟩ := exists_fields x
  have hu := hx.unpacks
  have hlt := m'.isLt
  rw [h] at hu
  cases hu with
  | subnormal => exact ⟨by omega, by omega, by omega⟩
  | normal _ hzero =>
    have hpos : 0 < e'.toNat := by
      refine Nat.pos_of_ne_zero fun he => hzero ?_
      exact BitVec.eq_of_toNat_eq he
    exact ⟨by omega, by omega, by omega⟩

theorem lt_of_exponent_lt {m m' : Nat} {e e' : Int} (h : Canonical m e) (h' : Canonical m' e')
    (he : e < e') : (m : ℚ) * 2 ^ e < m' * 2 ^ e' := by
  have hm : (m : ℚ) < 2 ^ 53 := by exact_mod_cast h.lt
  have hm' : (2 ^ 52 : ℚ) ≤ m' := by exact_mod_cast h'.le (lt_of_le_of_lt h.least_le he)
  calc (m : ℚ) * 2 ^ e < 2 ^ 53 * 2 ^ e := by gcongr
    _ = 2 ^ 52 * 2 ^ (e + 1) := by rw [zpow_add_one₀ (by norm_num)]; ring
    _ ≤ m' * 2 ^ e' := by
      gcongr
      · norm_num
      · exact he

theorem isLE_then_compare_iff {m m' : Nat} {e e' : Int} (h : Canonical m e) (h' : Canonical m' e') :
    ((compare e e').then (compare m m')).isLE = true ↔ (m : ℚ) * 2 ^ e ≤ m' * 2 ^ e' := by
  rw [Ordering.isLE_then_iff_or, Int.compare_eq_lt, Int.compare_eq_eq, Nat.isLE_compare]
  rcases lt_trichotomy e e' with he | rfl | he
  · exact iff_of_true (.inl he) (lt_of_exponent_lt h h' he).le
  · have hpos : (0 : ℚ) < 2 ^ e := by positivity
    simp [mul_le_mul_iff_left₀ hpos]
  · exact iff_of_false (by omega) (not_le.2 (lt_of_exponent_lt h' h he))

/-- The datum stands for the number; its magnitude is canonical. -/
inductive StandsFor : UnpackedFloat → ℚ → Prop
  | zero (s : Sign) : StandsFor (.zero s) 0
  | positive {m : Nat} {e : Int} (hm : 0 < m) (h : Canonical m e) :
    StandsFor (.finite .positive m e hm) (m * 2 ^ e)
  | negative {m : Nat} {e : Int} (hm : 0 < m) (h : Canonical m e) :
    StandsFor (.finite .negative m e hm) (-(m * 2 ^ e))

theorem standsFor_of_value? {x : Float} {a : ℚ} (h : value? x = some a) :
    StandsFor x.toModel.unpack a := by
  have canonical := @canonical_unpack x
  rw [value?] at h
  cases hu : x.toModel.unpack with
  | notANumber | infinity => rw [hu] at h; cases h
  | zero s =>
    rw [hu] at h
    cases h
    exact .zero s
  | finite s m e hm =>
    rw [hu] at h
    cases h
    cases s with
    | positive => simpa [Sign.apply] using StandsFor.positive hm (canonical hu)
    | negative => simpa [Sign.apply] using StandsFor.negative hm (canonical hu)

theorem StandsFor.le_iff {u v : UnpackedFloat} {a b : ℚ} (ha : StandsFor u a) (hb : StandsFor v b) :
    u.le v = true ↔ a ≤ b := by
  have pos {m : Nat} (hm : 0 < m) (e : Int) : (0 : ℚ) < m * 2 ^ e := by positivity
  cases ha with
  | zero =>
    cases hb with
    | zero => exact iff_of_true rfl le_rfl
    | @positive m e hm => exact iff_of_true rfl (pos hm e).le
    | @negative m e hm => exact iff_of_false Bool.false_ne_true (by simpa using pos hm e)
  | @positive m e hm h =>
    cases hb with
    | zero => exact iff_of_false Bool.false_ne_true (not_le.2 (pos hm e))
    | positive _ h' => exact isLE_then_compare_iff h h'
    | @negative m' e' hm' =>
      have hlt := pos hm e
      have hlt' := pos hm' e'
      exact iff_of_false Bool.false_ne_true (by linarith)
  | @negative m e hm h =>
    cases hb with
    | zero => exact iff_of_true rfl (by simpa using (pos hm e).le)
    | @positive m' e' hm' =>
      have hlt := pos hm e
      have hlt' := pos hm' e'
      exact iff_of_true rfl (by linarith)
    | @negative m' e' _ h' =>
      -- negative numbers compare the other way round
      have hswap : ((compare e e').then (compare m m')).swap
          = (compare e' e).then (compare m' m) := by
        rw [Ordering.swap_then, Int.compare_swap, Nat.compare_swap]
      rw [neg_le_neg_iff, ← isLE_then_compare_iff h' h, ← hswap]
      rfl

/-- Doubles compare as the numbers that they stand for. -/
theorem le_iff {x y : Float} {a b : ℚ} (ha : value? x = some a) (hb : value? y = some b) :
    x ≤ y ↔ a ≤ b := by
  have hle : x ≤ y ↔ x.toModel.unpack.le y.toModel.unpack = true := decide_eq_true_iff
  rw [hle, (standsFor_of_value? ha).le_iff (standsFor_of_value? hb)]

/-! Parts -/

theorem fraction_eq (p : FloatParts) :
    (p.numerator : ℚ) / p.denominator = p.signed * 2 ^ p.exponent := by
  obtain ⟨negative, m, e⟩ := p
  have hnumerator : ((FloatParts.mk negative m e).numerator : ℚ)
      = (FloatParts.mk negative m e).signed * 2 ^ e.toNat := by
    rw [FloatParts.numerator]
    push_cast [Nat.pow_eq]
    rfl
  have hdenominator : ((FloatParts.mk negative m e).denominator : ℚ) = 2 ^ (-e).toNat := by
    rw [FloatParts.denominator]
    push_cast [Nat.pow_eq]
    rfl
  rw [hnumerator, hdenominator, mul_div_assoc, ← zpow_natCast, ← zpow_natCast, ← zpow_sub₀ two_ne_zero]
  congr 2
  change (e.toNat : ℤ) - ((-e).toNat : ℤ) = e
  omega

theorem signed_eq (s : Sign) (m : Nat) (e : Int) :
    (FloatParts.mk (s == .negative) m e).signed = s.apply m := by
  cases s <;> rfl

theorem value?_of_parts {x : Float} {p : FloatParts} (h : FloatParts.ofFloat? x = some p) :
    value? x = some ((p.numerator : ℚ) / p.denominator) := by
  obtain ⟨s, e, m, hx⟩ := exists_fields x
  have hunpacks := hx.unpacks
  rw [ofFloat?_eq hx] at h
  rw [value?, fraction_eq]
  generalize x.toModel.unpack = u at hunpacks ⊢
  cases hunpacks with
  | nan he | infinity he =>
    subst he
    cases h
  | zero he hm =>
    subst he hm
    cases h
    rw [signed_eq]
    cases s <;> simp [datumValue?, Sign.apply]
  | subnormal he =>
    subst he
    cases h
    rw [signed_eq]
    rfl
  | normal hinf hzero =>
    have hinf : e.toNat ≠ 2047 := fun he => hinf (BitVec.eq_of_toNat_eq he)
    have hzero : e.toNat ≠ 0 := fun he => hzero (BitVec.eq_of_toNat_eq he)
    rw [if_neg hinf, if_neg hzero] at h
    cases h
    rw [signed_eq]
    rfl

theorem isFinite_eq (x : Float) : x.isFinite = (!x.isNaN && !x.isInf) := by
  change x.toModel.unpack.isFinite = (!x.toModel.unpack.isNaN && !x.toModel.unpack.isInf)
  cases x.toModel.unpack <;> rfl

theorem ofFloat?_eq_none_iff {x : Float} : FloatParts.ofFloat? x = none ↔ x.isFinite = false := by
  constructor
  · intro h
    cases hfinite : x.isFinite with
    | false => rfl
    | true =>
      simp only [isFinite_eq, Bool.and_eq_true, Bool.not_eq_true'] at hfinite
      obtain ⟨p, hp, -⟩ := exists_parts hfinite.1 hfinite.2
      rw [h] at hp
      cases hp
  · intro h
    cases hp : FloatParts.ofFloat? x with
    | none => rfl
    | some p =>
      rw [← value?_eq_none_iff, value?_of_parts hp] at h
      cases h

theorem even_floor {p : FloatParts} (he : 0 < p.exponent) : Even p.floor := by
  obtain ⟨k, hk⟩ : ∃ k, p.exponent.toNat = k + 1 := ⟨p.exponent.toNat - 1, by omega⟩
  have hdenominator : p.denominator = 1 := by
    rw [FloatParts.denominator, show (-p.exponent).toNat = 0 by omega]
  have hnumerator : p.numerator = 2 * (p.signed * 2 ^ k) := by
    rw [FloatParts.numerator, hk, Nat.pow_eq, pow_succ]
    push_cast
    ring
  rw [FloatParts.floor, hdenominator, Nat.cast_one, Int.ediv_one, hnumerator]
  exact even_two_mul _

theorem floor_lt {p : FloatParts} (he : p.exponent ≤ 0) (hm : p.mantissa < 2 ^ 53) :
    p.floor < 2 ^ 53 := by
  have hsigned : p.signed < 2 ^ 53 := by
    rw [FloatParts.signed]
    split <;> omega
  have hnumerator : p.numerator = p.signed := by
    rw [FloatParts.numerator, show p.exponent.toNat = 0 by omega]
    simp
  have hpos := p.denominator_pos
  by_contra hfloor
  have hle := (p.le_floor_iff _).1 (not_lt.1 hfloor)
  nlinarith

theorem mantissa_lt {x : Float} {p : FloatParts} (h : FloatParts.ofFloat? x = some p) :
    p.mantissa < 2 ^ 53 := by
  obtain ⟨s, e, m, hx⟩ := exists_fields x
  have hm := m.isLt
  rw [ofFloat?_eq hx] at h
  split at h
  · cases h
  · split at h <;> cases h <;> dsimp only <;> omega

section

variable {x : Float} {a : ℚ} (ha : value? x = some a)
include ha

/-- The parts of a double round to the floor and the ceiling of what it stands for. -/
theorem exists_parts_of_value? :
    ∃ p, FloatParts.ofFloat? x = some p ∧ p.floor = ⌊a⌋ ∧ p.ceil = ⌈a⌉ := by
  cases hp : FloatParts.ofFloat? x with
  | none =>
    rw [ofFloat?_eq_none_iff, ← value?_eq_none_iff, ha] at hp
    cases hp
  | some p =>
    rw [value?_of_parts hp, Option.some.injEq] at ha
    refine ⟨p, rfl, ?_, ?_⟩
    · rw [← ha, Rat.floor_intCast_div_natCast, FloatParts.floor]
    · rw [← ha, Rat.ceil_intCast_div_natCast, FloatParts.ceil]

theorem floor_ne_maxValue : ⌊a⌋ ≠ Int64.maxValue.toInt := by
  obtain ⟨p, hp, hfloor, -⟩ := exists_parts_of_value? ha
  rw [← hfloor]
  rcases lt_or_ge 0 p.exponent with he | he
  · have heven := even_floor he
    intro hmax
    rw [hmax] at heven
    exact absurd heven (by decide)
  · have hlt := floor_lt he (mantissa_lt hp)
    intro hmax
    rw [hmax] at hlt
    exact absurd hlt (by decide)

end

end Double

end PrefixCalculus
