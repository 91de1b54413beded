import PrefixCalculus.LoopRange
import PrefixCalculus.Proofs.ExactValues
set_option autoImplicit false

/-!
What a loop over two doubles visits. A range under way is told by how many numbers are to come, which
one is next and how far the last one is; a turn keeps this up, and neither the position nor the count
leaves its type. Main statement: unless a bound is infinite or NaN, or rounded inwards no 64-bit
integer, the range has every whole number between the bounds, once and in order, and then nothing for
good.
-/

namespace PrefixCalculus

namespace LoopRange

def advance (r : LoopRange) : LoopRange :=
  match r.next? with
  | some (_, after) => after
  | none => r

def after (r : LoopRange) (turns : Nat) : LoopRange :=
  advance^[turns] r

/-- The range has these numbers, one in each turn, and then nothing for good. Before every turn its
count is that of the numbers to come; the position moves by the whole step as long as another number
comes, and no more after that. -/
structure Enumerates (r : LoopRange) (ks : List Int) : Prop where
  yields : ∀ n, ((r.after n).next?.map fun turn => turn.1.toInt) = ks[n]?
  remaining : ∀ n, (r.after n).remaining.toNat = ks.length - n
  moves : ∀ n, n + 1 < ks.length →
    (r.after (n + 1)).next.toInt = (r.after n).next.toInt + r.step.toInt
  stays : ∀ n, ks.length ≤ n + 1 → (r.after (n + 1)).next = (r.after n).next

def progression (first distance : Int) (n : Nat) : List Int :=
  (List.range n).map fun i : Nat => first + distance * i

theorem mem_progression {first distance k : Int} {n : Nat} :
    k ∈ progression first distance n ↔ ∃ i : Nat, i < n ∧ first + distance * i = k := by
  simp [progression]

theorem pairwise_progression {R : Int → Int → Prop} {first distance : Int}
    (h : ∀ i j : Nat, i < j → R (first + distance * i) (first + distance * j)) (n : Nat) :
    (progression first distance n).Pairwise R := by
  rw [progression, List.pairwise_map]
  exact List.pairwise_lt_range.imp (h _ _)

/-- So many numbers are to come, and if any, the first one is next and the last one is known. -/
structure UnderWay (first distance : Int) (n : Nat) (r : LoopRange) : Prop where
  remaining : r.remaining.toNat = n
  step : r.step.toInt = distance
  next : 0 < n → r.next.toInt = first
  last : 0 < n → r.last.toInt = first + distance * (n - 1)

/-! A turn -/

section

variable {first distance : Int} {n : Nat} {r : LoopRange}

theorem next?_of_remaining (h : r.remaining ≠ 0) : r.next? = some (r.next, r.advance) := by
  rw [advance, next?, if_neg h]

theorem advance_of_remaining (h : r.remaining = 0) : r.advance = r := by
  rw [advance, (next?_eq_none_iff r).2 h]

theorem advance_eq (h : r.remaining ≠ 0) :
    r.advance = { r with
      next := if r.next = r.last then r.next else r.next + r.step
      remaining := r.remaining - 1 } := by
  rw [advance, next?, if_neg h]

theorem toInt_add_of_bounds {i j : Int64} (hlow : -2 ^ 63 ≤ i.toInt + j.toInt)
    (hhigh : i.toInt + j.toInt < 2 ^ 63) : (i + j).toInt = i.toInt + j.toInt := by
  rw [Int64.toInt_add]
  exact Int.bmod_eq_of_le_mul_two (by omega) (by omega)

namespace UnderWay

theorem remaining_eq_zero_iff (h : UnderWay first distance n r) : r.remaining = 0 ↔ n = 0 := by
  rw [← h.remaining, ← UInt64.toNat_inj]
  rfl

variable (unit : distance = 1 ∨ distance = -1)
include unit

theorem next_eq_last_iff (h : UnderWay first distance (n + 1) r) : r.next = r.last ↔ n = 0 := by
  have hlast := h.last (Nat.succ_pos n)
  rw [← Int64.toInt_inj, h.next (Nat.succ_pos n), hlast]
  rcases unit with rfl | rfl <;> push_cast <;> omega

/-- After a turn one number less is to come, and the next one is that behind the number taken. -/
theorem advance (h : UnderWay first distance n r) :
    UnderWay (first + distance) distance (n - 1) r.advance := by
  cases n with
  | zero =>
    rw [advance_of_remaining (h.remaining_eq_zero_iff.2 rfl)]
    exact ⟨h.remaining, h.step, fun hlt => absurd hlt (by omega), fun hlt => absurd hlt (by omega)⟩
  | succ n =>
    have hremaining : r.remaining ≠ 0 := fun h0 =>
      absurd (h.remaining_eq_zero_iff.1 h0) (Nat.succ_ne_zero n)
    have hcount : (r.remaining - 1).toNat = n := by
      have hone : 1 ≤ r.remaining := by
        rw [UInt64.le_iff_toNat_le, h.remaining]
        exact Nat.succ_pos n
      rw [UInt64.toNat_sub_of_le _ _ hone, h.remaining]
      rfl
    have hnext := h.next (Nat.succ_pos n)
    have hlast := h.last (Nat.succ_pos n)
    rw [advance_eq hremaining]
    refine ⟨hcount, h.step, fun hn => ?_, fun hn => ?_⟩
    · -- another number follows, so the position is short of the last one
      have hmoves : r.next ≠ r.last := fun heq =>
        absurd ((h.next_eq_last_iff unit).1 heq) (by omega)
      have hlow := r.last.le_toInt
      have hhigh := r.last.toInt_lt
      have hlow' := r.next.le_toInt
      have hhigh' := r.next.toInt_lt
      rw [if_neg hmoves, toInt_add_of_bounds, hnext, h.step] <;> rw [hnext, h.step] <;>
        rcases unit with rfl | rfl <;> push_cast at hlast <;> omega
    · rw [hlast]
      push_cast
      ring

theorem advance_next (h : UnderWay first distance n r) (hn : n ≤ 1) : r.advance.next = r.next := by
  by_cases hremaining : r.remaining = 0
  · rw [advance_of_remaining hremaining]
  · obtain rfl : n = 1 := by
      have := mt h.remaining_eq_zero_iff.2 hremaining
      omega
    rw [advance_eq hremaining, if_pos ((h.next_eq_last_iff unit).2 rfl)]

/-! A run -/

theorem after (h : UnderWay first distance n r) (turns : Nat) :
    UnderWay (first + distance * turns) distance (n - turns) (r.after turns) := by
  induction turns with
  | zero => simpa [LoopRange.after] using h
  | succ turns ih =>
    have hturn := ih.advance unit
    rw [Nat.sub_sub, add_assoc] at hturn
    rw [LoopRange.after, Function.iterate_succ_apply', Nat.cast_succ, mul_add_one]
    exact hturn

theorem enumerates (h : UnderWay first distance n r) :
    r.Enumerates (progression first distance n) where
  yields turns := by
    have hturn := h.after unit turns
    by_cases hlt : turns < n
    · have hremaining : (r.after turns).remaining ≠ 0 :=
        mt hturn.remaining_eq_zero_iff.1 (by omega)
      simp [next?_of_remaining hremaining, progression, hlt, hturn.next (by omega)]
    · have hremaining : (r.after turns).remaining = 0 :=
        hturn.remaining_eq_zero_iff.2 (by omega)
      simp [(next?_eq_none_iff _).2 hremaining, progression, hlt]
  remaining turns := by simp [progression, (h.after unit turns).remaining]
  moves turns hlt := by
    simp only [progression, List.length_map, List.length_range] at hlt
    rw [(h.after unit (turns + 1)).next (by omega), (h.after unit turns).next (by omega), h.step]
    push_cast
    ring
  stays turns hle := by
    simp only [progression, List.length_map, List.length_range] at hle
    rw [LoopRange.after, Function.iterate_succ_apply']
    exact (h.after unit turns).advance_next unit (by omega)

end UnderWay

end

/-! The start -/

def IsPosition (k : Int) : Prop :=
  -2 ^ 63 ≤ k ∧ k < 2 ^ 63

theorem position?_eq_none_iff {k : Int} : position? k = none ↔ ¬IsPosition k := by
  rw [position?, Int64.toInt_minValue, Int64.toInt_maxValue, IsPosition]
  split <;> simp only [reduceCtorEq, true_iff, false_iff] <;> omega

theorem toInt_of_position? {k : Int} {i : Int64} (h : position? k = some i) : i.toInt = k := by
  rw [position?, Int64.toInt_minValue, Int64.toInt_maxValue] at h
  split at h <;> cases h
  exact Int64.toInt_ofInt_of_le (by omega) (by omega)

theorem isPosition_of_position? {k : Int} {i : Int64} (h : position? k = some i) : IsPosition k := by
  rw [← toInt_of_position? h]
  exact ⟨i.le_toInt, i.toInt_lt⟩

theorem exists_of_count? {d : Int} (h : d + 1 < 2 ^ 64) :
    ∃ c, count? d = some c ∧ c.toNat = (d + 1).toNat := by
  rw [count?]
  split
  · exact ⟨0, rfl, by simp; omega⟩
  · rw [if_pos (by simpa [UInt64.size] using h)]
    refine ⟨_, rfl, ?_⟩
    rw [UInt64.toNat_ofNat']
    omega

def towards? (step : Int64) (first last : Int) : Option LoopRange := do
  let next ← position? first
  let stop ← position? last
  let remaining ← count? ((last - first) * step.toInt)
  return ⟨next, stop, step, remaining⟩

theorem ascending?_eq (first last : Int) : ascending? first last = towards? 1 first last := by
  simp [ascending?, towards?]

theorem descending?_eq (first last : Int) : descending? first last = towards? (-1) first last := by
  simp [descending?, towards?]

theorem towards?_cases {step : Int64} {distance first last : Int} (hstep : step.toInt = distance)
    (unit : distance = 1 ∨ distance = -1)
    (counted : IsPosition first → IsPosition last → (last - first) * distance + 1 < 2 ^ 64) :
    (¬(IsPosition first ∧ IsPosition last) ∧ towards? step first last = none) ∨
      (IsPosition first ∧ IsPosition last) ∧ ∃ r, towards? step first last = some r ∧
        r.Enumerates (progression first distance ((last - first) * distance + 1).toNat) := by
  rw [towards?, hstep]
  cases hfirst : position? first with
  | none => exact .inl ⟨fun h => position?_eq_none_iff.1 hfirst h.1, rfl⟩
  | some next =>
    cases hlast : position? last with
    | none => exact .inl ⟨fun h => position?_eq_none_iff.1 hlast h.2, rfl⟩
    | some stop =>
      have hends := And.intro (isPosition_of_position? hfirst) (isPosition_of_position? hlast)
      obtain ⟨c, hc, hcount⟩ := exists_of_count? (counted hends.1 hends.2)
      refine .inr ⟨hends, ⟨next, stop, step, c⟩, ?_, ?_⟩
      · simp only [hc, Option.bind_eq_bind, Option.bind_some]
        rfl
      · refine UnderWay.enumerates unit ⟨hcount, hstep, fun _ => toInt_of_position? hfirst, fun hn => ?_⟩
        rw [toInt_of_position? hlast]
        rcases unit with rfl | rfl <;> omega

/-! Between two doubles -/

section

open Double (value?)

variable {lower upper : Float}

theorem ofBounds?_of_not_finite (h : lower.isFinite = false ∨ upper.isFinite = false) :
    ofBounds? lower upper = none := by
  rw [ofBounds?]
  rcases h with h | h
  · rw [Double.ofFloat?_eq_none_iff.2 h]
    rfl
  · rw [Double.ofFloat?_eq_none_iff.2 h]
    cases FloatParts.ofFloat? lower <;> rfl

theorem ofBounds?_eq {a b : ℚ} (ha : value? lower = some a) (hb : value? upper = some b) :
    ofBounds? lower upper = if a ≤ b then towards? 1 ⌈a⌉ ⌊b⌋ else towards? (-1) ⌊a⌋ ⌈b⌉ := by
  obtain ⟨p, hp, hpfloor, hpceil⟩ := Double.exists_parts_of_value? ha
  obtain ⟨q, hq, hqfloor, hqceil⟩ := Double.exists_parts_of_value? hb
  simp only [ofBounds?, hp, hq, Option.bind_eq_bind, Option.bind_some, Double.le_iff ha hb,
    ascending?_eq, descending?_eq, hpfloor, hpceil, hqfloor, hqceil]

def BoundsFit (a b : ℚ) : Prop :=
  if a ≤ b then IsPosition ⌈a⌉ ∧ IsPosition ⌊b⌋ else IsPosition ⌊a⌋ ∧ IsPosition ⌈b⌉

/-- Every whole number between the bounds once, in the order from the first bound to the second. -/
def IsWholeBetween (a b : ℚ) (ks : List Int) : Prop :=
  if a ≤ b then ks.Pairwise (· < ·) ∧ ∀ k : Int, k ∈ ks ↔ a ≤ k ∧ k ≤ b
  else ks.Pairwise (· > ·) ∧ ∀ k : Int, k ∈ ks ↔ b ≤ k ∧ k ≤ a

theorem isWholeBetween_up {a b : ℚ} (hle : a ≤ b) :
    IsWholeBetween a b (progression ⌈a⌉ 1 ((⌊b⌋ - ⌈a⌉) * 1 + 1).toNat) := by
  rw [IsWholeBetween, if_pos hle]
  refine ⟨pairwise_progression (fun i j hij => by omega) _, fun k => ?_⟩
  rw [mem_progression, ← Int.ceil_le, ← Int.le_floor]
  constructor
  · rintro ⟨i, hi, rfl⟩
    omega
  · intro hk
    exact ⟨(k - ⌈a⌉).toNat, by omega, by omega⟩

theorem isWholeBetween_down {a b : ℚ} (hlt : ¬a ≤ b) :
    IsWholeBetween a b (progression ⌊a⌋ (-1) ((⌈b⌉ - ⌊a⌋) * -1 + 1).toNat) := by
  rw [IsWholeBetween, if_neg hlt]
  refine ⟨pairwise_progression (fun i j hij => by omega) _, fun k => ?_⟩
  rw [mem_progression, ← Int.ceil_le, ← Int.le_floor]
  constructor
  · rintro ⟨i, hi, rfl⟩
    omega
  · intro hk
    exact ⟨(⌊a⌋ - k).toNat, by omega, by omega⟩

/-- The only ends that are too far apart to be counted have the largest 64-bit integer among them,
which is no floor of a double. -/
theorem ofBounds?_cases {a b : ℚ} (ha : value? lower = some a) (hb : value? upper = some b) :
    (¬BoundsFit a b ∧ ofBounds? lower upper = none) ∨
      BoundsFit a b ∧ ∃ r ks, ofBounds? lower upper = some r ∧ r.Enumerates ks ∧
        IsWholeBetween a b ks := by
  rw [ofBounds?_eq ha hb, BoundsFit]
  by_cases hle : a ≤ b
  · rw [if_pos hle, if_pos hle]
    have hmax := Double.floor_ne_maxValue hb
    rw [Int64.toInt_maxValue] at hmax
    have hstep : (1 : Int64).toInt = 1 := rfl
    have hcases := @towards?_cases 1 1 ⌈a⌉ ⌊b⌋ hstep (.inl rfl) fun hfirst hlast => by
      have := hfirst.1
      have := hlast.2
      omega
    exact hcases.imp_right fun ⟨hends, r, hr, hks⟩ => ⟨hends, r, _, hr, hks, isWholeBetween_up hle⟩
  · rw [if_neg hle, if_neg hle]
    have hmax := Double.floor_ne_maxValue ha
    rw [Int64.toInt_maxValue] at hmax
    have hstep : (-1 : Int64).toInt = -1 := rfl
    have hcases := @towards?_cases (-1) (-1) ⌊a⌋ ⌈b⌉ hstep (.inr rfl) fun hfirst hlast => by
      have := hfirst.2
      have := hlast.1
      omega
    exact hcases.imp_right fun ⟨hends, r, hr, hks⟩ => ⟨hends, r, _, hr, hks, isWholeBetween_down hle⟩

end

/-- **A loop visits every whole number between its bounds.** There is no range exactly if a bound is
infinite or NaN, or one of them, rounded towards the other, is no 64-bit integer. Otherwise the range
has, upwards if the first bound is not above the second and downwards if it is, every whole number
between them once, and then nothing for good; before every turn its count is that of the numbers to
come, and neither the position nor the count leaves its type. -/
theorem ofBounds?_enumerates (lower upper : Float) :
    (ofBounds? lower upper = none ↔ lower.isFinite = false ∨ upper.isFinite = false ∨
      ∃ a b, Double.value? lower = some a ∧ Double.value? upper = some b ∧ ¬BoundsFit a b) ∧
    ∀ r, ofBounds? lower upper = some r → ∃ a b ks, Double.value? lower = some a ∧
      Double.value? upper = some b ∧ r.Enumerates ks ∧ IsWholeBetween a b ks := by
  by_cases hfinite : lower.isFinite = false ∨ upper.isFinite = false
  · have hnone := ofBounds?_of_not_finite hfinite
    rw [hnone]
    exact ⟨iff_of_true rfl (or_assoc.1 (.inl hfinite)), fun r hr => by cases hr⟩
  · simp only [← Double.value?_eq_none_iff, not_or] at hfinite
    obtain ⟨a, ha⟩ := Option.ne_none_iff_exists'.1 hfinite.1
    obtain ⟨b, hb⟩ := Option.ne_none_iff_exists'.1 hfinite.2
    simp only [← Double.value?_eq_none_iff, ha, hb, Option.some.injEq, reduceCtorEq, false_or,
      exists_eq_left', exists_and_left]
    rcases ofBounds?_cases ha hb with ⟨hends, hnone⟩ | ⟨hends, r, ks, hr, hks, hbetween⟩
    · rw [hnone]
      exact ⟨iff_of_true rfl hends, fun r hr => by cases hr⟩
    · rw [hr]
      refine ⟨iff_of_false (Option.some_ne_none r) (not_not.2 hends), ?_⟩
      rintro r' ⟨⟩
      exact ⟨ks, hks, hbetween⟩

/-- From the least position on there can be more numbers than positions from zero on. -/
theorem ofBounds?_enumerates_wide : ∃ r ks, ofBounds? (-9223372036854775808.0) 9.2e18 = some r ∧
    r.Enumerates ks ∧ ks[0]? = some (-2 ^ 63) ∧ ks.length = 18423372036854775809 := by
  have hstart : ofBounds? (-9223372036854775808.0) 9.2e18
      = some ⟨Int64.minValue, 9200000000000000000, 1, 18423372036854775809⟩ := by decide +kernel
  obtain ⟨a, b, ks, -, -, hks, -⟩ := (ofBounds?_enumerates _ _).2 _ hstart
  exact ⟨_, ks, hstart, hks, (hks.yields 0).symm, (hks.remaining 0).symm⟩

end LoopRange

end PrefixCalculus
