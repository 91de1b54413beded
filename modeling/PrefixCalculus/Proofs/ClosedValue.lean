import PrefixCalculus.Proofs.Denotation
import PrefixCalculus.Simplification
set_option autoImplicit false

/-!
The value of a body without variables, parameters and calls, well-formed or not. Every walk over it
ends, and in every frame and environment with the same value, which is therefore that of a call of it.
-/

namespace PrefixCalculus

variable [SpecialFunctions]

/-- Whatever the frame and the environment, a walk of the depth ends with the value, no earlier than
where it started. -/
def Walk.Fixed (nodes : Array Node) (depth pos : Nat) : Prop :=
  ∃ value stop, pos ≤ stop ∧
    ∀ frame env, walkAt depth nodes frame env pos = some ⟨value, stop, env⟩

namespace Walk

variable {nodes : Array Node} {depth pos : Nat}

theorem unary_fixed {op : UnaryOp} (hn : nodes[pos]? = some (.op (.unary op)))
    (h : Fixed nodes depth (pos + 1)) : Fixed nodes (depth + 1) pos := by
  obtain ⟨x, p, hp, hx⟩ := h
  refine ⟨op.apply x, p, by omega, fun frame env => ?_⟩
  simp only [walkAt, hn, unary, hx frame env, Option.bind_eq_bind, Option.bind_some]
  rfl

theorem binary_fixed {op : BinaryOp} (hn : nodes[pos]? = some (.op (.binary op)))
    (h : ∀ p, pos < p → Fixed nodes depth p) : Fixed nodes (depth + 1) pos := by
  obtain ⟨x, p, hp, hx⟩ := h (pos + 1) (by omega)
  obtain ⟨y, q, hq, hy⟩ := h p (by omega)
  refine ⟨op.apply x y, q, by omega, fun frame env => ?_⟩
  simp only [walkAt, hn, binary, hx frame env, hy frame env, Option.bind_eq_bind, Option.bind_some]
  rfl

theorem branch_fixed (hn : nodes[pos]? = some (.op .branch))
    (h : ∀ p, pos < p → Fixed nodes depth p) : Fixed nodes (depth + 1) pos := by
  obtain ⟨c, p, hp, hc⟩ := h (pos + 1) (by omega)
  cases hyes : Span.at? nodes p with
  | error =>
    refine ⟨nan, p, by omega, fun frame env => ?_⟩
    simp only [walkAt, hn, branch, hc frame env, hyes, Option.bind_eq_bind, Option.bind_some]
    rfl
  | ok yes =>
    obtain ⟨hystart, hystop, -⟩ := Span.at?_eq_ok hyes
    cases hno : Span.at? nodes yes.stop with
    | error =>
      refine ⟨nan, p, by omega, fun frame env => ?_⟩
      simp only [walkAt, hn, branch, hc frame env, hyes, hno, Option.bind_eq_bind, Option.bind_some]
      rfl
    | ok no =>
      obtain ⟨hnstart, hnstop, -⟩ := Span.at?_eq_ok hno
      by_cases hnan : c.isNaN
      · refine ⟨nan, no.stop, by omega, fun frame env => ?_⟩
        simp only [walkAt, hn, branch, hc frame env, hyes, hno, if_pos hnan, Option.bind_eq_bind,
          Option.bind_some]
        rfl
      · have hbody : pos < if c != 0.0 then yes.bodyStart else no.bodyStart := by
          simp only [Span.bodyStart]
          split <;> omega
        obtain ⟨x, q, -, hx⟩ := h _ hbody
        refine ⟨x, no.stop, by omega, fun frame env => ?_⟩
        simp only [walkAt, hn, branch, hc frame env, hyes, hno, if_neg hnan, hx frame env,
          Option.bind_eq_bind, Option.bind_some]
        rfl

/-- A walk over closed nodes is never deeper than there are nodes to come. -/
theorem fixed_of_closed
    (closed : ∀ (i : Nat) (node : Node), nodes[i]? = some node → node.isOpen = false)
    (depth : Nat) : ∀ pos, nodes.size ≤ depth + pos → Fixed nodes (depth + 1) pos := by
  induction depth with
  | zero =>
    intro pos hsize
    have hn : nodes[pos]? = none := Array.getElem?_eq_none (by omega)
    exact ⟨nan, pos, by omega, fun frame env => by simp only [walkAt, hn]⟩
  | succ depth ih =>
    intro pos hsize
    have hlater : ∀ p, pos < p → Fixed nodes (depth + 1) p := fun p hp => ih p (by omega)
    cases hn : nodes[pos]? with
    | none => exact ⟨nan, pos, by omega, fun frame env => by simp only [walkAt, hn]⟩
    | some node =>
      have hclosed := closed pos node hn
      cases node with
      | literal x => exact ⟨x.value, pos + 1, by omega, fun frame env => by simp only [walkAt, hn]⟩
      | opening => exact ⟨nan, pos + 1, by omega, fun frame env => by simp only [walkAt, hn]⟩
      | closing => exact ⟨nan, pos + 1, by omega, fun frame env => by simp only [walkAt, hn]⟩
      | ref | arg | call => cases hclosed
      | op op =>
        cases op with
        | unary op => exact unary_fixed hn (hlater _ (by omega))
        | binary op => exact binary_fixed hn hlater
        | branch => exact branch_fixed hn hlater
        | fold kind =>
          -- the place of the variable holds no variable, since variables are open
          cases hvar : nodes[pos + 1]? with
          | none => exact ⟨nan, pos + 1, by omega, fun frame env => by simp [walkAt, hn, loop, hvar]⟩
          | some node =>
            refine ⟨nan, pos + 2, by omega, fun frame env => ?_⟩
            have hopen := closed (pos + 1) node hvar
            cases node with
            | ref => cases hopen
            | _ => simp [walkAt, hn, loop, hvar]

end Walk

namespace Expression

theorem fixed_of_isClosed {e : Expression} (closed : e.isClosed = true) :
    e.isNull = false ∧ Walk.Fixed e.nodes (e.size + 1) 0 := by
  simp only [isClosed, Bool.and_eq_true, Bool.not_eq_true'] at closed
  obtain ⟨hnull, hall⟩ := closed
  have hclosed : ∀ (i : Nat) (node : Node), e.nodes[i]? = some node → node.isOpen = false := by
    intro i node hi
    rw [Array.all_eq_true_iff_forall_mem] at hall
    simpa using hall node (Array.mem_of_getElem? hi)
  exact ⟨hnull, Walk.fixed_of_closed hclosed e.size 0 (Nat.le_refl _)⟩

theorem value_of_walk_closed {e : Expression} (closed : e.isClosed = true) {depth : Nat}
    {frame : Frame} {env : Environment} {w : Walk} (h : walkAt depth e.nodes frame env 0 = some w) :
    w.value = e.closedValue := by
  obtain ⟨hnull, value, stop, -, hwalk⟩ := fixed_of_isClosed closed
  have heval : e.closedValue = value := by
    simp only [closedValue, evalWithin, hnull, Bool.false_eq_true, if_false, hwalk, Option.map_some]
  have hgrow := walkAt_mono (Nat.le_max_left depth (e.size + 1)) _ _ _ _ _ h
  rw [walkAt_mono (Nat.le_max_right depth (e.size + 1)) _ _ _ _ _ (hwalk frame env)] at hgrow
  rw [heval, ← Option.some.inj hgrow]

end Expression

namespace Term

theorem eq_of_enters_closed {env : Environment} {f : FunctionId} {values : List Float}
    {v value : Float} (hclosed : closedCall? env f values.length = some value)
    (h : Enters f values env v) : v = value := by
  obtain ⟨function, hf, hclosed⟩ := Option.bind_eq_some_iff.1 hclosed
  split at hclosed
  · rename_i hbody
    obtain ⟨hargc, hbody⟩ := Bool.and_eq_true_iff.1 hbody
    obtain ⟨depth, h⟩ := h
    obtain ⟨d, h⟩ := exists_byWalk_of_callValue depth h
    have hnull : function.body.isNull = false := by
      simp only [Expression.isClosed, Bool.and_eq_true, Bool.not_eq_true'] at hbody
      exact hbody.1
    simp only [Enter.byWalk, hf] at h
    rw [if_neg (by simp [hnull, of_decide_eq_true hargc])] at h
    obtain ⟨w, hw, rfl⟩ := Option.map_eq_some_iff.1 h
    rw [Expression.value_of_walk_closed hbody hw, ← Option.some.inj hclosed]
  · cases hclosed

end Term

end PrefixCalculus
