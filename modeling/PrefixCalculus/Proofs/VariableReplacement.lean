import PrefixCalculus.Proofs.UniqueDecoding
import PrefixCalculus.Proofs.Unrolling
set_option autoImplicit false

/-!
Replacing a variable of a flat expression. The buffer is put together again, with the loops around a
node as the only memory of what is bound there. Main statement: the result is the flat form of the term
with the replacement for the free occurrences, and null only if there is one to replace and nothing to
put in its place.
-/

namespace PrefixCalculus

namespace Term

theorem anyHasFree_eq_any (address : Address) (ts : List Term) :
    anyHasFree address ts = ts.any (hasFree address) := by
  induction ts with
  | nil => rfl
  | cons t ts ih => rw [anyHasFree, ih, List.any_cons]

theorem encodeWith_ofVar_of_not_hasFree {address : Address} {value : Expression} (t : Term)
    (h : t.hasFree address = false) : t.encodeWith (Replacement.ofVar address value) = t.encode := by
  induction t using Term.induction with
  | literal | arg => rfl
  | ref a =>
    have hne : a ≠ address := by simpa [hasFree] using h
    simp [encodeWith, Replacement.ofVar, hne, encode]
  | unary op t ih => rw [encodeWith, ih h, encode]
  | binary op a b iha ihb =>
    simp only [hasFree, Bool.or_eq_false_iff] at h
    rw [encodeWith, iha h.1, ihb h.2, encode]
  | branch c a b ihc iha ihb =>
    simp only [hasFree, Bool.or_eq_false_iff] at h
    rw [encodeWith, ihc h.1.1, iha h.1.2, ihb h.2, encode]
  | loop kind v lower upper body ihl ihu ihb =>
    simp only [hasFree, Bool.or_eq_false_iff, Bool.and_eq_false_iff, bne_eq_false_iff_eq] at h
    rw [encodeWith, under_ofVar, ihl h.1.1, ihu h.1.2, encode]
    by_cases hv : v = address
    · rw [if_pos hv, encodeWith_keep]
    · rw [if_neg hv, ihb (h.2.resolve_left hv)]
  | call f args ih =>
    simp only [hasFree, anyHasFree_eq_any, List.any_eq_false, Bool.not_eq_true] at h
    have hargs : encodeAllWith (Replacement.ofVar address value) args = encodeAll args := by
      rw [encodeAllWith_eq_map, encodeAll_eq_map]
      exact List.map_congr_left fun t ht => ih t ht (h t ht)
    show Expression.call f (encodeAllWith (Replacement.ofVar address value) args) = _
    rw [hargs, encode]

theorem isNull_encodeWith_ofVar_null (address : Address) (t : Term) :
    (t.encodeWith (Replacement.ofVar address Expression.null)).isNull = t.hasFree address := by
  induction t using Term.induction with
  | literal | arg => rfl
  | ref a =>
    by_cases h : a = address
    · simp [encodeWith, Replacement.ofVar, hasFree, h]
    · simp [encodeWith, Replacement.ofVar, hasFree, h, Expression.var]
  | unary op t ih => simp [encodeWith, Expression.unary, Expression.operation, hasFree, ih]
  | binary op a b iha ihb =>
    simp [encodeWith, Expression.binary, Expression.operation, hasFree, iha, ihb]
  | branch c a b ihc iha ihb => simp only [encodeWith, Expression.isNull_branch, hasFree, ihc, iha, ihb]
  | loop kind v lower upper body ihl ihu ihb =>
    rw [encodeWith, Expression.isNull_loop, ihl, ihu, hasFree, under_ofVar]
    by_cases hv : v = address
    · simp [hv, encodeWith_keep, isNull_encode]
    · simp [hv, ihb, bne_iff_ne.2 hv]
  | call f args ih =>
    show (Expression.call f (encodeAllWith (Replacement.ofVar address Expression.null) args)).isNull = _
    rw [Expression.call, Expression.isNull_headed, encodeAllWith_eq_map, List.any_map, hasFree,
      anyHasFree_eq_any, Bool.eq_iff_iff, List.any_eq_true, List.any_eq_true]
    constructor
    · rintro ⟨t, ht, hnull⟩
      exact ⟨t, ht, by rw [← ih t ht]; exact hnull⟩
    · rintro ⟨t, ht, hfree⟩
      exact ⟨t, ht, by rw [Function.comp_apply, ih t ht, hfree]⟩

theorem replace_ref_self (address : Address) (t : Term) : replace address (ref address) t = t := by
  induction t using Term.induction with
  | literal | arg => rfl
  | ref a =>
    rw [replace]
    split
    · rename_i h; rw [h]
    · rfl
  | unary op t ih => rw [replace, ih]
  | binary op a b iha ihb => rw [replace, iha, ihb]
  | branch c a b ihc iha ihb => rw [replace, ihc, iha, ihb]
  | loop kind v lower upper body ihl ihu ihb => rw [replace, ihl, ihu, ihb, ite_self]
  | call f args ih => rw [replace, replaceAll_eq_map, List.map_congr_left ih, List.map_id']

/-- Where a loop over the variable is, only its bounds are open to a replacement; so what is put in
place of the variable is under no such loop, and its own occurrences are free again. -/
theorem hasFree_replace (address : Address) (value t : Term) :
    (replace address value t).hasFree address = (t.hasFree address && value.hasFree address) := by
  induction t using Term.induction with
  | literal | arg => rfl
  | ref a =>
    by_cases h : a = address
    · simp [replace, hasFree, h]
    · simp [replace, hasFree, h]
  | unary op t ih => rw [replace, hasFree, ih, hasFree]
  | binary op a b iha ihb => rw [replace, hasFree, iha, ihb, hasFree, Bool.and_or_distrib_right]
  | branch c a b ihc iha ihb =>
    rw [replace, hasFree, ihc, iha, ihb, hasFree, Bool.and_or_distrib_right, Bool.and_or_distrib_right]
  | loop kind v lower upper body ihl ihu ihb =>
    rw [replace, hasFree, ihl, ihu, hasFree, Bool.and_or_distrib_right, Bool.and_or_distrib_right]
    by_cases hv : v = address
    · simp [hv]
    · simp [hv, ihb, bne_iff_ne.2 hv]
  | call f args ih =>
    rw [replace, replaceAll_eq_map, hasFree, hasFree, anyHasFree_eq_any, anyHasFree_eq_any,
      List.any_map, Bool.eq_iff_iff]
    simp only [List.any_eq_true, Bool.and_eq_true, Function.comp_apply]
    constructor
    · rintro ⟨t, ht, hfree⟩
      rw [ih t ht, Bool.and_eq_true] at hfree
      exact ⟨⟨t, ht, hfree.1⟩, hfree.2⟩
    · rintro ⟨⟨t, ht, hfree⟩, hvalue⟩
      exact ⟨t, ht, by rw [ih t ht, hfree, hvalue]; rfl⟩

theorem replaceVar_eq_encodeWith {t : Term} (fits : t.Fits) (address : Address) (value : Expression) :
    t.encode.replaceVar address value = t.encodeWith (Replacement.ofVar address value) := by
  rw [Expression.replaceVar, Expression.withReplacements_eq _ (isNull_encode t), decode_encode fits]
  rfl

end Term

namespace Expression

/-- A valid expression is read as a term. With another valid expression for a variable it is the flat
form of that term with the other's term for the free occurrences, and with null it is null exactly if
there are any. It passes the check again unless it is null or too long for its distances; and it is
the expression it was if the variable is not free in it or is put in its own place. -/
theorem replaceVar_of_check {e value : Expression} (address : Address) (he : e.check = .ok ())
    (hvalue : value.isNull = true ∨ value.check = .ok ())
    (hsize : (e.replaceVar address value).size < UInt32.size) :
    ∃ t : Term, Term.decode e = .ok t ∧ t.encode = e ∧
      ((e.replaceVar address value).isNull = true ↔
        value.isNull = true ∧ t.hasFree address = true) ∧
      ((e.replaceVar address value).isNull = false → (e.replaceVar address value).check = .ok ()) ∧
      (value.isNull = false → ∃ s : Term, Term.decode value = .ok s ∧ s.encode = value ∧
        e.replaceVar address value = (Term.replace address s t).encode) ∧
      (t.hasFree address = false → e.replaceVar address value = e) ∧
      (value = .var address → e.replaceVar address value = e) := by
  obtain ⟨t, fits, rfl⟩ := Term.check_eq_ok_iff.1 he
  refine ⟨t, Term.decode_encode fits, rfl, ?_⟩
  rw [Term.replaceVar_eq_encodeWith fits] at hsize ⊢
  have hkept : t.hasFree address = false →
      t.encodeWith (Replacement.ofVar address value) = t.encode :=
    Term.encodeWith_ofVar_of_not_hasFree t
  obtain hnull | hvalid := hvalue
  · obtain rfl := (isNull_iff value).1 hnull
    rw [Term.isNull_encodeWith_ofVar_null]
    refine ⟨⟨fun h => ⟨rfl, h⟩, And.right⟩, fun h => ?_, nofun, hkept, nofun⟩
    rw [hkept h]
    exact he
  · obtain ⟨s, sfits, rfl⟩ := Term.check_eq_ok_iff.1 hvalid
    rw [Term.encodeWith_ofVar, size, Term.size_encode] at hsize
    have hfits := Term.fits_of_size (Nat.le_of_lt hsize)
    simp only [Term.encodeWith_ofVar, Term.isNull_encode, Bool.false_eq_true, false_and, true_and,
      forall_const] at hkept ⊢
    refine ⟨Term.check_encode hfits, ⟨s, Term.decode_encode sfits, rfl, rfl⟩, hkept, fun hs => ?_⟩
    rw [show s = .ref address from Term.eq_of_encode_eq trivial hs, Term.replace_ref_self]

/-- The sum over `y` from `x` to 3 of the product over `x` from `x` to `y` of `x`. -/
def reboundSum : Term :=
  .loop .sum ⟨1⟩ (.ref ⟨0⟩) (.const 3.0)
    (.loop .product ⟨0⟩ (.ref ⟨0⟩) (.ref ⟨1⟩) (.ref ⟨0⟩))

/-- The bounds of both loops are replaced, the body of the inner one is not. -/
theorem replaceVar_reboundSum :
    reboundSum.encode.replaceVar ⟨0⟩ (call ⟨0⟩ [arg 1]) =
      (Term.loop .sum ⟨1⟩ (.call ⟨0⟩ [.arg 1]) (.const 3.0)
        (.loop .product ⟨0⟩ (.call ⟨0⟩ [.arg 1]) (.ref ⟨1⟩) (.ref ⟨0⟩))).encode ∧
    (reboundSum.encode.replaceVar ⟨0⟩ null).isNull = true := by
  have accepted : reboundSum.encode.check = .ok () := rfl
  obtain ⟨t, ht, -, -, -, hreplaced, -⟩ :=
    replaceVar_of_check ⟨0⟩ accepted (.inr (rfl : (call ⟨0⟩ [arg 1]).check = .ok ())) (by decide)
  obtain ⟨s, hs, -, heq⟩ := hreplaced rfl
  obtain rfl := Except.ok.inj ((rfl : Term.decode reboundSum.encode = .ok reboundSum).symm.trans ht)
  obtain rfl := Except.ok.inj
    ((rfl : Term.decode (call ⟨0⟩ [arg 1]) = .ok (.call ⟨0⟩ [.arg 1])).symm.trans hs)
  obtain ⟨t, ht, -, hnull, -⟩ := replaceVar_of_check ⟨0⟩ accepted (.inl isNull_null) (by decide)
  obtain rfl := Except.ok.inj ((rfl : Term.decode reboundSum.encode = .ok reboundSum).symm.trans ht)
  exact ⟨heq, hnull.2 ⟨rfl, rfl⟩⟩

end Expression

end PrefixCalculus
