import PrefixCalculus.Numeric.Counting
import PrefixCalculus.Numeric.Series
import PrefixCalculus.Proofs.WholeDoubles
set_option autoImplicit false

/-!
Binomial coefficients of whole numbers. The loop multiplies before it divides, so after each step it
holds a binomial coefficient again, without a remainder, as long as the products have doubles. Main
statement: the binomial coefficient of two whole numbers is exact, and so is every step on the way.
-/

namespace PrefixCalculus

open Double

/-- The products of the loop have doubles, for whole numbers with so much between them. -/
def ProductsFit (rest count : ℕ) : Prop :=
  ∀ i, 1 ≤ i → i ≤ count → i * (rest + i).choose i ≤ 2 ^ 53

/-! The loop -/

section

variable {x y : Float} {k : ℕ} (hy : IsWhole y k) (hk : k < 2 ^ 53)
include hy hk

theorem choosePartial_succ (steps : ℕ) : ∀ {i : ℕ} {index : Float} (acc : Float), i + steps < k →
    IsWhole index (i + 1) → ∃ last, IsWhole last (i + steps + 1) ∧
      choosePartial x y (steps + 1) index acc
        = choosePartial x y steps index acc * (x - y + last) / last := by
  induction steps with
  | zero =>
    intro i index acc hi hindex
    have hle : index ≤ y := (le_iff hindex hy).2 (by exact_mod_cast hi)
    exact ⟨index, hindex, by simp only [choosePartial, if_pos hle]⟩
  | succ steps ih =>
    intro i index acc hi hindex
    have hle : index ≤ y := (le_iff hindex hy).2 (by exact_mod_cast (by omega : i + 1 ≤ k))
    obtain ⟨last, hlast, hstep⟩ := @ih (i + 1) (index + 1.0) (acc * (x - y + index) / index)
      (by omega) (hindex.add isWhole_one (by decide) (by omega))
    have hlast : IsWhole last (i + (steps + 1) + 1) := by
      have hsum : i + (steps + 1) + 1 = i + 1 + steps + 1 := by omega
      rwa [hsum]
    refine ⟨last, hlast, ?_⟩
    rw [choosePartial, if_pos hle, hstep]
    conv_rhs => rw [choosePartial, if_pos hle]

theorem choosePartial_of_le (steps : ℕ) : ∀ {i : ℕ} {index : Float} (acc : Float), i ≤ k →
    k ≤ i + steps → IsWhole index (i + 1) →
      choosePartial x y steps index acc = choosePartial x y (k - i) index acc := by
  induction steps with
  | zero =>
    intro i index acc hi hle _
    rw [show k - i = 0 by omega]
  | succ steps ih =>
    intro i index acc hi hle hindex
    rcases Nat.eq_or_lt_of_le hi with rfl | hlt
    · have hstop : ¬index ≤ y := by
        rw [le_iff hindex hy]
        exact_mod_cast Nat.not_succ_le_self i
      simp only [Nat.sub_self, choosePartial, if_neg hstop]
    · have hgo : index ≤ y := (le_iff hindex hy).2 (by exact_mod_cast hlt)
      have hleft : k - i = (k - (i + 1)) + 1 := by omega
      simp only [hleft, choosePartial, if_pos hgo]
      exact ih _ hlt (by omega) (hindex.add isWhole_one (by decide) (by omega))

end

/-! Its numbers -/

section

variable {x y : Float} {n k : ℕ} (hx : IsWhole x n) (hy : IsWhole y k) (hk : k ≤ n) (hn : n < 2 ^ 53)
include hx hy hk hn

theorem isWhole_factor {index : Float} {i : ℕ} (hindex : IsWhole index (i + 1)) (hi : i < k) :
    IsWhole (x - y + index) (n - k + i + 1) :=
  (hx.sub hy hk hn.le).add hindex (Nat.succ_pos i) (by omega)

/-- One step of the loop: the product is a multiple of the index, and the quotient is the next
coefficient. -/
theorem choose_step (fits : ProductsFit (n - k) k) {index acc : Float} {i : ℕ} (hi : i < k)
    (hindex : IsWhole index (i + 1)) (hacc : IsWhole acc ((n - k + i).choose i)) :
    IsWhole (acc * (x - y + index)) ((i + 1) * (n - k + (i + 1)).choose (i + 1)) ∧
      IsWhole (acc * (x - y + index) / index) ((n - k + (i + 1)).choose (i + 1)) := by
  have hfactor := isWhole_factor hx hy hk hn hindex hi
  have hpos : 0 < (n - k + i).choose i := Nat.choose_pos (by omega)
  have hproduct : (n - k + i).choose i * (n - k + i + 1)
      = (i + 1) * (n - k + (i + 1)).choose (i + 1) := by
    rw [Nat.mul_comm, Nat.mul_comm (i + 1)]
    exact Nat.add_one_mul_choose_eq (n - k + i) i
  have hfits := fits (i + 1) (by omega) hi
  have hnext : 0 < (n - k + (i + 1)).choose (i + 1) := Nat.choose_pos (by omega)
  have hmul := hacc.mul hfactor hpos (Nat.succ_pos _) (hproduct ▸ hfits)
  rw [hproduct] at hmul
  refine ⟨hmul, IsWhole.div ?_ hindex hnext (Nat.succ_pos i) ?_⟩
  · rwa [Nat.mul_comm] at hmul
  · exact (Nat.le_mul_of_pos_left _ (Nat.succ_pos i)).trans hfits

theorem isWhole_choosePartial (fits : ProductsFit (n - k) k) {i : ℕ} (hi : i ≤ k) :
    IsWhole (choosePartial x y i 1.0 1.0) ((n - k + i).choose i) := by
  induction i with
  | zero =>
    rw [choosePartial, Nat.choose_zero_right]
    exact isWhole_one
  | succ i ih =>
    obtain ⟨last, hlast, hstep⟩ := choosePartial_succ (x := x) hy (by omega) i (i := 0) 1.0
      (by omega) isWhole_one
    rw [Nat.zero_add] at hlast
    rw [hstep]
    exact (choose_step hx hy hk hn fits hi hlast (ih (by omega))).2

end

/-! The coefficient -/

theorem isWhole_lesserNumber {x y : Float} {a b : ℕ} (hx : IsWhole x a) (hy : IsWhole y b) :
    IsWhole (lesserNumber x y) (min a b) := by
  rw [lesserNumber, hx.isNaN_eq, hy.isNaN_eq, if_neg Bool.false_ne_true, if_neg Bool.false_ne_true]
  by_cases hle : a ≤ b
  · rw [if_pos ((le_iff hx hy).2 (by exact_mod_cast hle)), Nat.min_eq_left hle]
    exact hx
  · rw [if_neg fun h => hle (by exact_mod_cast (le_iff hx hy).1 h),
      Nat.min_eq_right (Nat.le_of_not_le hle)]
    exact hy

def factorCount (x y : Float) : Float :=
  lesserNumber (round y) (round x - round y)

def accumulated (x y : Float) (steps : ℕ) : Float :=
  choosePartial (round x) (factorCount x y) steps 1.0 1.0

/-- Every step of the loop is exact: the product has no remainder by the index, and the quotient is the
next coefficient. -/
structure StepsExact (x y : Float) (rest count : ℕ) : Prop where
  held : ∀ i ≤ count, IsWhole (accumulated x y i) ((rest + i).choose i)
  divided : ∀ i < count, ∃ index : Float, IsWhole index (i + 1) ∧
    IsWhole (accumulated x y i * (round x - factorCount x y + index))
      ((i + 1) * (rest + (i + 1)).choose (i + 1)) ∧
    accumulated x y (i + 1)
      = accumulated x y i * (round x - factorCount x y + index) / index

theorem ProductsFit.choose_le {rest count c : ℕ} (fits : ProductsFit rest count)
    (hc : (rest + count).choose count = c) : c ≤ 2 ^ 53 := by
  rcases Nat.eq_zero_or_pos count with rfl | hcount
  · rw [← hc, Nat.choose_zero_right]
    decide
  · rw [← hc]
    exact (Nat.le_mul_of_pos_left _ hcount).trans (fits count hcount le_rfl)

section

variable {x y : Float} {n k : ℕ} (hx : IsWhole x n) (hy : IsWhole y k) (hk : k ≤ n) (hn : n < 2 ^ 53)
include hx hy hk hn

theorem isWhole_factorCount : IsWhole (factorCount x y) (min k (n - k)) := by
  have hround := hy.round (by omega)
  exact isWhole_lesserNumber hround ((hx.round hn.le).sub hround hk hn.le)

variable [SpecialFunctions]

theorem choose_eq (hcount : min k (n - k) ≤ 64) :
    choose x y = round (accumulated x y (min k (n - k))) := by
  have hx' := hx.round hn.le
  have hy' := hy.round (by omega)
  have hzero : IsWhole 0.0 0 := isWhole_of_unpack_zero unpack_zero
  have hlimit : IsWhole 64.0 64 := by
    have h : (64.0 : Float) = Float.ofNat 64 := by decide
    rw [h]
    exact isWhole_ofNat (by decide)
  have hcount' := isWhole_factorCount hx hy hk hn
  have hsmall : factorCount x y ≤ 64.0 := (le_iff hcount' hlimit).2 (by exact_mod_cast hcount)
  have hin : (round y < 0.0 || round x < 0.0 || round y > round x) = false := by
    have hky : ¬round y < 0.0 := by
      rw [lt_iff hy' hzero]
      simp
    have hnx : ¬round x < 0.0 := by
      rw [lt_iff hx' hzero]
      simp
    have hkn : ¬round x < round y := by
      rw [lt_iff hx' hy', not_lt]
      exact_mod_cast hk
    simp [hky, hnx, hkn]
  have hloop := choosePartial_of_le (x := round x) hcount' (by omega) 64 (i := 0) 1.0
    (Nat.zero_le _) (by omega) isWhole_one
  rw [choose, hx'.isNaN_eq, hy'.isNaN_eq, Bool.or_self, if_neg Bool.false_ne_true, hin,
    if_neg Bool.false_ne_true]
  exact (if_pos hsmall).trans (congrArg round hloop)

/-- **Binomial coefficients are exact while their products have doubles.** For whole numbers in order,
with at most 64 factors, the result is the coefficient, and so is what the loop holds after each step,
with no remainder of a division. -/
theorem choose_exact (hcount : min k (n - k) ≤ 64)
    (fits : ProductsFit (n - min k (n - k)) (min k (n - k))) :
    IsWhole (choose x y) (n.choose k) ∧ StepsExact x y (n - min k (n - k)) (min k (n - k)) := by
  have hx' := hx.round hn.le
  have hcount' := isWhole_factorCount hx hy hk hn
  have hmin : min k (n - k) ≤ n := (Nat.min_le_left _ _).trans hk
  have hheld : ∀ i ≤ min k (n - k), IsWhole (accumulated x y i) ((n - min k (n - k) + i).choose i) :=
    fun i hi => isWhole_choosePartial hx' hcount' hmin hn fits hi
  refine ⟨?_, hheld, fun i hi => ?_⟩
  · have hwhole := hheld _ le_rfl
    have hchoose : (n - min k (n - k) + min k (n - k)).choose (min k (n - k)) = n.choose k := by
      rw [Nat.sub_add_cancel hmin]
      rcases Nat.le_total k (n - k) with hle | hle
      · rw [Nat.min_eq_left hle]
      · rw [Nat.min_eq_right hle, Nat.choose_symm hk]
    rw [hchoose] at hwhole
    rw [choose_eq hx hy hk hn hcount]
    exact hwhole.round (fits.choose_le hchoose)
  · obtain ⟨index, hindex, hstep⟩ := choosePartial_succ (x := round x) hcount' (by omega) i
      (i := 0) 1.0 (by omega) isWhole_one
    rw [Nat.zero_add] at hindex
    exact ⟨index, hindex, (choose_step hx' hcount' hmin hn fits hi hindex (hheld i hi.le)).1, hstep⟩

end

open Series

theorem choose_exact_ten_seven :
    (IsWhole (Float.ofNat 10) 10 ∧ IsWhole (Float.ofNat 7) 7 ∧ 7 ≤ 10 ∧ 10 < 2 ^ 53 ∧
        min 7 (10 - 7) ≤ 64 ∧ ProductsFit (10 - min 7 (10 - 7)) (min 7 (10 - 7))) ∧
      IsWhole (choose (Float.ofNat 10) (Float.ofNat 7)) 120 ∧
      StepsExact (Float.ofNat 10) (Float.ofNat 7) 7 3 := by
  have hx : IsWhole (Float.ofNat 10) 10 := isWhole_ofNat (by decide)
  have hy : IsWhole (Float.ofNat 7) 7 := isWhole_ofNat (by decide)
  have fits : ProductsFit 7 3 := by
    intro i hi hle
    interval_cases i <;> decide
  exact ⟨⟨hx, hy, by decide, by decide, by decide, fits⟩,
    choose_exact hx hy (by decide) (by decide) (by decide) fits⟩

end PrefixCalculus
