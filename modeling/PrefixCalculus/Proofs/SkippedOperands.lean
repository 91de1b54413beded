import Mathlib.Control.Monad.Basic
import Mathlib.Logic.Relation
import PrefixCalculus.Derivative
import PrefixCalculus.Expression.Check
import PrefixCalculus.Numeric.Series
set_option autoImplicit false

/-!
Skipping over nodes that nobody checked: calls that claim any number of arguments, spans that overlap or
close at the marker of another. Every turn of skipping moves on and stays in the buffer, whatever is
pending. Main statement: skipping ends, behind its start and in the buffer or with a defect, and so does
a span; so a differentiation never takes nodes from beyond a buffer, be it the body of a function that
was registered unchecked.
-/

namespace PrefixCalculus

open Relation (ReflTransGen)

/-- Where skipping stands: so many operands are still to be skipped, from the position on. -/
structure Skipping where
  pending : Nat
  pos : Nat

/-- One turn of skipping. A leaf is one operand, a head has its operands to be skipped in its place,
and a span is one operand whatever it holds. -/
inductive SkipStep (nodes : Array Node) : Skipping → Skipping → Prop
  | literal {pending pos : Nat} {x : Literal} (h : nodes[pos]? = some (.literal x)) :
      SkipStep nodes ⟨pending + 1, pos⟩ ⟨pending, pos + 1⟩
  | ref {pending pos : Nat} {a : Address} (h : nodes[pos]? = some (.ref a)) :
      SkipStep nodes ⟨pending + 1, pos⟩ ⟨pending, pos + 1⟩
  | arg {pending pos : Nat} {i : UInt32} (h : nodes[pos]? = some (.arg i)) :
      SkipStep nodes ⟨pending + 1, pos⟩ ⟨pending, pos + 1⟩
  | op {pending pos : Nat} {op : Operator} (h : nodes[pos]? = some (.op op)) :
      SkipStep nodes ⟨pending + 1, pos⟩ ⟨pending + op.arity, pos + 1⟩
  | call {pending pos : Nat} {f : FunctionId} {argc : UInt32}
      (h : nodes[pos]? = some (.call f argc)) :
      SkipStep nodes ⟨pending + 1, pos⟩ ⟨pending + argc.toNat, pos + 1⟩
  | span {pending pos : Nat} {distance : UInt32} {s : Span}
      (h : nodes[pos]? = some (.opening distance)) (hs : Span.at? nodes pos = .ok s) :
      SkipStep nodes ⟨pending + 1, pos⟩ ⟨pending, s.stop⟩

inductive SkipEnds (nodes : Array Node) : Skipping → Except Defect Nat → Prop
  | done {pos : Nat} : SkipEnds nodes ⟨0, pos⟩ (.ok pos)
  | missing {pending pos : Nat} (h : nodes[pos]? = none) :
      SkipEnds nodes ⟨pending + 1, pos⟩ (.error (.truncated pos))
  | unclosed {pending pos : Nat} {distance : UInt32} {d : Defect}
      (h : nodes[pos]? = some (.opening distance)) (hs : Span.at? nodes pos = .error d) :
      SkipEnds nodes ⟨pending + 1, pos⟩ (.error d)
  | closing {pending pos : Nat} {distance : UInt32}
      (h : nodes[pos]? = some (.closing distance)) :
      SkipEnds nodes ⟨pending + 1, pos⟩ (.error (.strayMarker pos))

section

variable {nodes : Array Node} {s s' : Skipping} {result : Except Defect Nat} {left : Nat}

/-! Turns -/

theorem SkipStep.forward (h : SkipStep nodes s s') : s.pos < s'.pos ∧ s'.pos ≤ nodes.size := by
  cases h with
  | literal h | ref h | arg h | op h | call h =>
    have hlt := (Array.getElem?_eq_some_iff.1 h).1
    dsimp only
    omega
  | span _ hs =>
    have hbounds := Span.at?_eq_ok hs
    dsimp only
    omega

theorem wellFounded_skipStep (nodes : Array Node) :
    WellFounded fun next s => SkipStep nodes s next := by
  refine Subrelation.wf (r := fun a b : Skipping => nodes.size - a.pos < nodes.size - b.pos) ?_
    (measure fun s : Skipping => nodes.size - s.pos).wf
  intro next s h
  have := h.forward
  omega

theorem Operator.arity_le (op : Operator) : op.arity ≤ 4 := by
  cases op <;> simp [arity]

/-- What is to be skipped, with the nodes that follow each counted as a call of the most arguments,
becomes less with every turn. -/
theorem SkipStep.room (h : SkipStep nodes s s') :
    s'.pending + (UInt32.size - 1) * (nodes.size - s'.pos)
      < s.pending + (UInt32.size - 1) * (nodes.size - s.pos) := by
  have hforward := h.forward
  have hsize : UInt32.size - 1 = 4294967295 := rfl
  rw [hsize]
  cases h with
  | literal | ref | arg | span => dsimp only at *; omega
  | @op _ _ op =>
    have := op.arity_le
    dsimp only at *
    omega
  | @call _ _ _ argc =>
    have := argc.toNat_lt
    dsimp only at *
    omega

theorem exists_step_or_ends (nodes : Array Node) (s : Skipping) :
    (∃ s', SkipStep nodes s s') ∨ ∃ result, SkipEnds nodes s result := by
  obtain ⟨pending, pos⟩ := s
  cases pending with
  | zero => exact .inr ⟨_, .done⟩
  | succ pending =>
    cases h : nodes[pos]? with
    | none => exact .inr ⟨_, .missing h⟩
    | some node =>
      cases node with
      | literal => exact .inl ⟨_, .literal h⟩
      | ref => exact .inl ⟨_, .ref h⟩
      | arg => exact .inl ⟨_, .arg h⟩
      | op => exact .inl ⟨_, .op h⟩
      | call => exact .inl ⟨_, .call h⟩
      | opening =>
        cases hs : Span.at? nodes pos with
        | ok => exact .inl ⟨_, .span h hs⟩
        | error => exact .inr ⟨_, .unclosed h hs⟩
      | closing => exact .inr ⟨_, .closing h⟩

theorem skipOperands_of_step (h : SkipStep nodes s s') (left : Nat) :
    skipOperands nodes (left + 1) s.pending s.pos = skipOperands nodes left s'.pending s'.pos := by
  cases h with
  | literal h | ref h | arg h | op h | call h => rw [skipOperands, h]
  | span h hs => simp only [skipOperands, h, hs]

theorem exists_left_of_node {pos : Nat} {node : Node} (h : nodes[pos]? = some node)
    (enough : nodes.size - pos ≤ left) : ∃ k, left = k + 1 := by
  have hlt := (Array.getElem?_eq_some_iff.1 h).1
  exact ⟨left - 1, by omega⟩

theorem skipOperands_of_ends (h : SkipEnds nodes s result) (enough : nodes.size - s.pos ≤ left) :
    skipOperands nodes left s.pending s.pos = result := by
  cases h with
  | done => cases left <;> rfl
  | missing h =>
    cases left with
    | zero => rfl
    | succ left => rw [skipOperands, h]
  | unclosed h hs =>
    obtain ⟨left, rfl⟩ := exists_left_of_node h enough
    simp only [skipOperands, h, hs]
  | closing h =>
    obtain ⟨left, rfl⟩ := exists_left_of_node h enough
    simp only [skipOperands, h]

/-! Runs -/

theorem exists_run_to_end (nodes : Array Node) (s : Skipping) :
    ∃ last result, ReflTransGen (SkipStep nodes) s last ∧ SkipEnds nodes last result := by
  induction s using (wellFounded_skipStep nodes).induction with
  | _ s ih =>
    obtain ⟨next, h⟩ | ⟨result, h⟩ := exists_step_or_ends nodes s
    · obtain ⟨last, result, hrun, hends⟩ := ih next h
      exact ⟨last, result, hrun.head h, hends⟩
    · exact ⟨s, result, .refl, h⟩

theorem skipOperands_of_run {last : Skipping} (hrun : ReflTransGen (SkipStep nodes) s last)
    (hends : SkipEnds nodes last result) :
    ∀ left, nodes.size - s.pos ≤ left → skipOperands nodes left s.pending s.pos = result := by
  induction hrun using ReflTransGen.head_induction_on with
  | refl => exact fun left enough => skipOperands_of_ends hends enough
  | head h _ ih =>
    intro left enough
    have hforward := h.forward
    obtain ⟨left, rfl⟩ : ∃ k, left = k + 1 := ⟨left - 1, by omega⟩
    rw [skipOperands_of_step h]
    exact ih left (by omega)

/-- Skipping gives the one end that its turns lead to. -/
theorem operandStop_eq_iff (pos : Nat) : operandStop nodes pos = result ↔
    ∃ last, ReflTransGen (SkipStep nodes) ⟨1, pos⟩ last ∧ SkipEnds nodes last result := by
  -- the turns lead to some end, and whichever they lead to is what is given
  obtain ⟨last, result', hrun, hends⟩ := exists_run_to_end nodes ⟨1, pos⟩
  have hstop : operandStop nodes pos = result' := skipOperands_of_run hrun hends _ (Nat.le_refl _)
  constructor
  · rintro rfl
    exact ⟨last, hrun, hstop ▸ hends⟩
  · rintro ⟨last', hrun', hends'⟩
    exact skipOperands_of_run hrun' hends' _ (Nat.le_refl _)

theorem room_of_run (hrun : ReflTransGen (SkipStep nodes) s s') :
    s'.pending + (UInt32.size - 1) * (nodes.size - s'.pos)
      ≤ s.pending + (UInt32.size - 1) * (nodes.size - s.pos) := by
  induction hrun with
  | refl => exact Nat.le_refl _
  | tail _ h ih => exact Nat.le_trans (Nat.le_of_lt h.room) ih

/-- A buffer whose nodes 32 bits count never has more operands pending than 64 bits count. -/
theorem pending_lt_of_run {pos : Nat} (hsize : nodes.size < UInt32.size)
    (hrun : ReflTransGen (SkipStep nodes) ⟨1, pos⟩ s) : s.pending < UInt64.size := by
  have hroom := room_of_run hrun
  have h32 : UInt32.size = 4294967296 := rfl
  have h64 : UInt64.size = 18446744073709551616 := rfl
  rw [h32] at hroom hsize
  rw [h64]
  dsimp only at hroom
  omega

end

theorem Span.bounds_of_at? {nodes : Array Node} {pos : Nat} {s : Span}
    (h : Span.at? nodes pos = .ok s) : pos < s.bodyStop ∧ s.bodyStop < s.stop ∧
      s.stop ≤ nodes.size ∧ s.bodyStart ≤ s.bodyStop := by
  obtain ⟨rfl, hroom, hstop⟩ := Span.at?_eq_ok h
  simp only [Span.stop, Span.bodyStop, Span.bodyStart] at *
  omega

/-! Slices -/

namespace Derivation

section

variable {cut : Slicing}

theorem orDefect_bind_congr {α β : Type} {r : Except Defect α} {f g : α → Attempt β}
    (h : ∀ a, r = .ok a → f a = g a) : orDefect r >>= f = orDefect r >>= g := by
  cases r with
  | error => rfl
  | ok a => exact h a rfl

variable (hcut : cut.Exact)
include hcut

theorem operandAt_eq : operandAt cut = operandAt .total := by
  funext nodes pos
  refine orDefect_bind_congr fun stop hstop => ?_
  obtain ⟨hlt, hsize⟩ := operandStop_bounds hstop
  rw [hcut nodes pos stop (Nat.le_of_lt hlt) hsize]

variable [SpecialFunctions]

theorem unary_eq : unary cut = unary .total := by
  unfold unary
  rw [operandAt_eq hcut]

theorem binary_eq : binary cut = binary .total := by
  unfold binary
  rw [operandAt_eq hcut]

omit [SpecialFunctions] in
theorem branch_eq : branch cut = branch .total := by
  unfold branch
  rw [operandAt_eq hcut]

theorem loop_eq : loop cut = loop .total := by
  funext ctx go stack target nodes pos kind
  unfold loop
  rw [operandAt_eq hcut]
  -- only behind a variable is anything taken
  cases nodes[pos + 1]? with
  | none => rfl
  | some node =>
    cases node with
    | ref address =>
      refine bind_congr fun lower => bind_congr fun upper => orDefect_bind_congr fun span hspan => ?_
      obtain ⟨-, hstop, hsize, hbody⟩ := Span.bounds_of_at? hspan
      rw [hcut nodes _ _ hbody (by omega)]
    | _ => rfl

omit [SpecialFunctions] in
theorem arguments_eq : arguments cut = arguments .total := by
  funext go stack target nodes count
  induction count with
  | zero => rfl
  | succ count ih =>
    funext pos
    rw [arguments, arguments, operandAt_eq hcut, ih]

theorem call_eq : call cut = call .total := by
  unfold call
  rw [arguments_eq hcut]

/-- No slice is taken from beyond a buffer, whatever the nodes are and whatever the bodies of the
functions: what a slice would be there does not matter. -/
theorem descendBy_eq : descendBy cut = descend := by
  funext ctx depth
  induction depth with
  | zero => rfl
  | succ depth ih =>
    funext stack target nodes pos
    rw [descend] at ih ⊢
    rw [descendBy, descendBy, ih, unary_eq hcut, binary_eq hcut, branch_eq hcut, loop_eq hcut,
      call_eq hcut]

end

end Derivation

/-! Safety -/

/-- **Skipping is safe on any nodes.** The turns of skipping come to an end, which is the one that is
given, and what they leave to be skipped is counted by 64 bits in every buffer whose nodes 32 bits
count. An operand that is skipped ends behind its start and in the buffer, and a span that is read has
its body between its markers and these in the buffer. A cursor that meets a defect stays. And whatever
taking nodes from beyond a buffer may do, a differentiation does not show it: no slice in it is out of
range, with any functions, and at any position of any nodes. -/
theorem skipping_stays_inside [SpecialFunctions] (nodes : Array Node) (pos : Nat) :
    ((WellFounded fun next s => SkipStep nodes s next) ∧
      ∀ result, operandStop nodes pos = result ↔
        ∃ last, ReflTransGen (SkipStep nodes) ⟨1, pos⟩ last ∧ SkipEnds nodes last result) ∧
    (nodes.size < UInt32.size →
      ∀ s, ReflTransGen (SkipStep nodes) ⟨1, pos⟩ s → s.pending < UInt64.size) ∧
    (∀ stop, operandStop nodes pos = .ok stop → pos < stop ∧ stop ≤ nodes.size) ∧
    (∀ s, Span.at? nodes pos = .ok s →
      pos < s.bodyStop ∧ s.bodyStop < s.stop ∧ s.stop ≤ nodes.size ∧ s.bodyStart ≤ s.bodyStop) ∧
    (∀ d cursor, Cursor.skip ⟨nodes, pos⟩ = (.error d, cursor) → cursor = ⟨nodes, pos⟩) ∧
    ∀ cut : Slicing, cut.Exact → ∀ ctx depth stack target,
      Derivation.descendBy cut ctx depth stack target nodes pos
        = ctx.descend depth stack target nodes pos := by
  refine ⟨⟨wellFounded_skipStep nodes, fun result => operandStop_eq_iff pos⟩,
    fun hsize s => pending_lt_of_run hsize, fun stop => operandStop_bounds,
    fun s => Span.bounds_of_at?, fun d cursor h => ?_, fun cut hcut ctx depth stack target => ?_⟩
  · unfold Cursor.skip at h
    split at h
    · cases h
    · cases h
      rfl
  · rw [Derivation.descendBy_eq hcut]

open Series

/-- The sum over `$1` from 1 to 2 of the parameter, with a span that does not end where its body does,
a second one that overlaps it, and a call in both that claims all the arguments it can. -/
def forgedBody : Array Node :=
  #[.op (.fold .sum), .ref ⟨1⟩, .const 1.0, .const 2.0, .opening 4, .arg 0, .opening 3,
    .call ⟨0⟩ 4294967295, .closing 4, .closing 3]

def forgedStore : Environment where
  slots := #[⟨some "x", 0.5⟩, ⟨some "i", 1.0⟩]
  entries := #[⟨⟨"f", 1, ⟨forgedBody⟩⟩, true⟩]

/-- The check refuses the body. The sum is skipped up to the last marker, the call ends at a marker, and
the derivative of `f(x)` is found without a slice out of range. -/
theorem skipping_stays_inside_forgedBody :
    checkBuffer forgedBody = .error (.unclosedSpan 4) ∧
    (operandStop forgedBody 0 = .ok 9 ∧ 0 < 9 ∧ 9 ≤ forgedBody.size) ∧
    (Span.at? forgedBody 6 = .ok ⟨6, 4⟩ ∧ 6 < 9 ∧ 9 < 10 ∧ 10 ≤ forgedBody.size ∧ 7 ≤ 9) ∧
    (∀ s, ReflTransGen (SkipStep forgedBody) ⟨1, 7⟩ s → s.pending < UInt64.size) ∧
    (∃ cursor, Cursor.skip ⟨forgedBody, 7⟩ = (.error (.strayMarker 8), cursor) ∧
      cursor = ⟨forgedBody, 7⟩) ∧
    ∀ error, (Derivation.descendBy (.refusing error) ⟨forgedStore, 4096⟩ 5 [] (.var ⟨0⟩)
      #[.call ⟨0⟩ 1, .ref ⟨0⟩] 0).run = some (.ok (.const 2.0, 2)) := by
  have hsum : operandStop forgedBody 0 = .ok 9 := rfl
  have hspan : Span.at? forgedBody 6 = .ok ⟨6, 4⟩ := rfl
  obtain ⟨-, -, bounds, -⟩ := skipping_stays_inside forgedBody 0
  obtain ⟨-, -, -, inside, -⟩ := skipping_stays_inside forgedBody 6
  obtain ⟨-, counted, -, -, stays, -⟩ := skipping_stays_inside forgedBody 7
  obtain ⟨-, -, -, -, -, same⟩ := skipping_stays_inside #[.call ⟨0⟩ 1, .ref ⟨0⟩] 0
  refine ⟨rfl, ⟨hsum, bounds 9 hsum⟩, ⟨hspan, inside _ hspan⟩, counted (by decide),
    ⟨_, rfl, stays _ _ rfl⟩, fun error => ?_⟩
  rw [same _ (Slicing.exact_refusing error)]
  decide +kernel

end PrefixCalculus
