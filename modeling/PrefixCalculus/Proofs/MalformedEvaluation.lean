import PrefixCalculus.Numeric.Series
import PrefixCalculus.Proofs.DoubleArithmetic
import PrefixCalculus.Proofs.Visits
set_option autoImplicit false

/-!
What the evaluation of a malformed buffer gives. A walk looks for defects only where it comes to, and
takes each that it finds for a NaN; it does not see whether nodes follow the one expression, whether a
body fills its span, or what is in a body that is not entered. Main statements: a buffer of any nodes is
evaluated as the term that has NaN in place of what is missing or misplaced, and such a NaN is the value
of the whole where no operator absorbs it on the way. So evaluation does not refuse what the check
refuses.
-/

namespace PrefixCalculus

namespace Term

def mendOperands (mend : Nat → Term × Nat) : Nat → Nat → List Term × Nat
  | 0, pos => ([], pos)
  | count + 1, pos =>
    let (t, pos) := mend pos
    let (ts, pos) := mendOperands mend count pos
    (t :: ts, pos)

/-- What the operand at a position is taken for, and the position after it: NaN stands for an operand
that is missing, for a span marker and for a loop without a variable. A branch or a loop without its
spans still has its operands evaluated. -/
def mendFrom (nodes : Array Node) : Nat → Nat → Term × Nat
  | 0, pos => (const nan, pos)
  | depth + 1, pos =>
    match nodes[pos]? with
    | none => (const nan, pos)
    | some (.literal x) => (literal x, pos + 1)
    | some (.ref address) => (ref address, pos + 1)
    | some (.arg index) => (arg index, pos + 1)
    | some (.opening _) | some (.closing _) => (const nan, pos + 1)
    | some (.call f argc) =>
      let (args, pos) := mendOperands (mendFrom nodes depth) argc.toNat (pos + 1)
      (call f args, pos)
    | some (.op (.unary op)) =>
      let (operand, pos) := mendFrom nodes depth (pos + 1)
      (unary op operand, pos)
    | some (.op (.binary op)) =>
      let (lhs, pos) := mendFrom nodes depth (pos + 1)
      let (rhs, pos) := mendFrom nodes depth pos
      (binary op lhs rhs, pos)
    | some (.op .branch) =>
      let (condition, pos) := mendFrom nodes depth (pos + 1)
      match Span.at? nodes pos with
      | .error _ => (branch condition (const nan) (const nan), pos)
      | .ok yes =>
        match Span.at? nodes yes.stop with
        | .error _ => (branch condition (const nan) (const nan), pos)
        | .ok no =>
          (branch condition (mendFrom nodes depth yes.bodyStart).1
            (mendFrom nodes depth no.bodyStart).1, no.stop)
    | some (.op (.fold kind)) =>
      match nodes[pos + 1]? with
      | none => (const nan, pos + 1)
      | some (.ref address) =>
        let (lower, pos) := mendFrom nodes depth (pos + 2)
        let (upper, pos) := mendFrom nodes depth pos
        match Span.at? nodes pos with
        | .error _ => (branch (binary .eq lower upper) (const nan) (const nan), pos)
        | .ok span =>
          (loop kind address lower upper (mendFrom nodes depth span.bodyStart).1, span.stop)
      | some _ => (const nan, pos + 2)

theorem mendOperands_stop {mend : Nat → Term × Nat} (h : ∀ p, p ≤ (mend p).2) (count : Nat) :
    ∀ pos, pos ≤ (mendOperands mend count pos).2 := by
  induction count with
  | zero => exact fun pos => le_rfl
  | succ count ih => exact fun pos => (h pos).trans (ih _)

theorem mendFrom_stop (nodes : Array Node) (depth : Nat) : ∀ pos, pos ≤ (mendFrom nodes depth pos).2 := by
  induction depth with
  | zero => exact fun pos => le_rfl
  | succ depth ih =>
    intro pos
    have hfirst := ih (pos + 1)
    rw [mendFrom]
    split
    · exact le_rfl
    · exact Nat.le_succ pos
    · exact Nat.le_succ pos
    · exact Nat.le_succ pos
    · exact Nat.le_succ pos
    · exact Nat.le_succ pos
    · exact (Nat.le_succ pos).trans (mendOperands_stop ih _ (pos + 1))
    · exact (Nat.le_succ pos).trans hfirst
    · exact (Nat.le_succ pos).trans (hfirst.trans (ih _))
    · dsimp only
      split
      · exact (Nat.le_succ pos).trans hfirst
      · rename_i yes hyes
        obtain ⟨hystart, hystop, -⟩ := Span.at?_eq_ok hyes
        split
        · exact (Nat.le_succ pos).trans hfirst
        · rename_i no hno
          obtain ⟨-, hnstop, -⟩ := Span.at?_eq_ok hno
          dsimp only
          omega
    · have hlower := ih (pos + 2)
      have hupper := ih (mendFrom nodes depth (pos + 2)).2
      split
      · exact Nat.le_succ pos
      · dsimp only
        split
        · dsimp only; omega
        · rename_i span hspan
          obtain ⟨-, hstop, -⟩ := Span.at?_eq_ok hspan
          dsimp only
          omega
      · dsimp only; omega

end Term

namespace Walk

section

variable {nodes : Array Node} {s : Step} {env : Environment} {pos : Nat}

def Unspanned (nodes : Array Node) (pos : Nat) : Prop :=
  ∀ yes no, Span.at? nodes pos = .ok yes → Span.at? nodes yes.stop ≠ .ok no

theorem branch_of_unspanned {c : Walk} (hc : s env pos = some c) (h : Unspanned nodes c.pos) :
    branch nodes s env pos = some { c with value := nan } := by
  simp only [branch, hc, Option.bind_eq_bind, Option.bind_some]
  cases hyes : Span.at? nodes c.pos with
  | error => rfl
  | ok yes =>
    cases hno : Span.at? nodes yes.stop with
    | error =>
      dsimp only
      rw [hno]
      rfl
    | ok no => exact absurd hno (h yes no hyes)

theorem loop_of_unspanned {kind : Fold} {address : Address} {lower upper : Walk} {d : Defect}
    (hvar : nodes[pos]? = some (.ref address)) (hl : s env (pos + 1) = some lower)
    (hu : s lower.env lower.pos = some upper) (h : Span.at? nodes upper.pos = .error d) :
    loop nodes s kind env pos = some { upper with value := nan } := by
  simp only [loop, hvar, hl, hu, h, Option.bind_eq_bind, Option.bind_some]
  rfl

end

end Walk

namespace Term

section

variable [SpecialFunctions]

def mendAt (nodes : Array Node) (levels pos : Nat) : Except Defect (Term × Nat) :=
  if nodes.size < levels + pos then .ok (mendFrom nodes levels pos) else .error (.truncated pos)

/-- A term is read at a position or made up for a defect there, its operands being read by `read`. -/
inductive Mends (nodes : Array Node) (read : Nat → Except Defect (Term × Nat)) :
    Nat → Term → Nat → Prop
  | whole {pos t stop} : Reads nodes read pos t stop → Mends nodes read pos t stop
  | missing {pos} : nodes[pos]? = none → Mends nodes read pos (const nan) pos
  | marker {pos node} : nodes[pos]? = some node →
      (∃ d, node = .opening d ∨ node = .closing d) → Mends nodes read pos (const nan) (pos + 1)
  | foldOfNothing {pos kind} : nodes[pos]? = some (.op (.fold kind)) → nodes[pos + 1]? = none →
      Mends nodes read pos (const nan) (pos + 1)
  | foldOfOther {pos kind node} : nodes[pos]? = some (.op (.fold kind)) →
      nodes[pos + 1]? = some node → (∀ a, node ≠ .ref a) → Mends nodes read pos (const nan) (pos + 2)
  | branch {pos c mid} : nodes[pos]? = some (.op .branch) → read (pos + 1) = .ok (c, mid) →
      Walk.Unspanned nodes mid → Mends nodes read pos (branch c (const nan) (const nan)) mid
  | loop {pos kind v lower p upper q d} : nodes[pos]? = some (.op (.fold kind)) →
      nodes[pos + 1]? = some (.ref v) → read (pos + 2) = .ok (lower, p) → read p = .ok (upper, q) →
      Span.at? nodes q = .error d →
      Mends nodes read pos (branch (binary .eq lower upper) (const nan) (const nan)) q

theorem valueBy_branch_nan {enter : Enter} {frame : Frame} {c : Term} {env : Environment} {v : Float} :
    (branch c (const nan) (const nan)).valueBy enter frame env = some v ↔
      (∃ x, c.valueBy enter frame env = some x) ∧ v = nan := by
  rw [valueBy, Walk.bind_eq_some]
  have same (x : Float) : (if x.isNaN then return nan
      else if x != 0.0 then (const nan).valueBy enter frame env
      else (const nan).valueBy enter frame env : Option Float) = some nan := by
    simp only [valueBy, ite_self]
    exact ite_self _
  constructor
  · rintro ⟨x, hx, h⟩
    exact ⟨⟨x, hx⟩, (Option.some.inj ((same x).symm.trans h)).symm⟩
  · rintro ⟨⟨x, hx⟩, rfl⟩
    exact ⟨x, hx, same x⟩

section

variable {nodes : Array Node} {frame : Frame} {read : Nat → Except Defect (Term × Nat)}
  {pos stop : Nat} {t : Term}

theorem Mends.finds {depth : Nat} {enter : Enter} (h : Mends nodes read pos t stop)
    (he : Enter.Le (Enter.byWalk depth) enter)
    (ih : ∀ p u q, read p = .ok (u, q) →
      Walk.Finds (walkAt depth nodes frame) p q (u.valueBy enter frame)) :
    Walk.Finds (walkAt (depth + 1) nodes frame) pos stop (t.valueBy enter frame) := by
  intro env w hw
  cases h with
  | whole hreads => exact hreads.finds he ih env w hw
  | missing hn =>
    simp only [walkAt, hn] at hw
    cases hw
    exact ⟨rfl, rfl, rfl⟩
  | marker hn hnode =>
    obtain ⟨d, rfl | rfl⟩ := hnode <;>
    · simp only [walkAt, hn] at hw
      cases hw
      exact ⟨rfl, rfl, rfl⟩
  | foldOfNothing hn hvar =>
    simp only [walkAt, hn, Walk.loop, hvar] at hw
    cases hw
    exact ⟨rfl, rfl, rfl⟩
  | @foldOfOther kind node hn hnode hother =>
    simp only [walkAt, hn, Walk.loop, hnode] at hw
    cases node with
    | ref a => exact absurd rfl (hother a)
    | _ =>
      cases hw
      exact ⟨rfl, rfl, rfl⟩
  | branch hn hc hspans =>
    simp only [walkAt, hn] at hw
    obtain ⟨c, hwalk, -⟩ := Walk.bind_eq_some.1 hw
    obtain ⟨hvalue, hmid, henv⟩ := ih _ _ _ hc _ _ hwalk
    rw [Walk.branch_of_unspanned hwalk (hmid ▸ hspans)] at hw
    cases hw
    exact ⟨valueBy_branch_nan.2 ⟨⟨_, hvalue⟩, rfl⟩, hmid, henv⟩
  | @loop kind v lo p hi q d hn hvar hl hu hspan =>
    simp only [walkAt, hn] at hw
    have hloop := hw
    simp only [Walk.loop, hvar] at hloop
    obtain ⟨lower, hlower, hloop⟩ := Walk.bind_eq_some.1 hloop
    obtain ⟨upper, hupper, -⟩ := Walk.bind_eq_some.1 hloop
    obtain ⟨hlo, rfl, rfl⟩ := ih _ _ _ hl _ _ hlower
    obtain ⟨hhi, rfl, henv⟩ := ih _ _ _ hu _ _ hupper
    rw [Walk.loop_of_unspanned hvar hlower hupper hspan] at hw
    cases hw
    have hboth : (binary .eq lo hi).valueBy enter frame lower.env
        = some (BinaryOp.eq.apply lower.value upper.value) :=
      Walk.bind_eq_some.2 ⟨_, hlo, Walk.bind_eq_some.2 ⟨_, hhi, rfl⟩⟩
    exact ⟨valueBy_branch_nan.2 ⟨⟨_, hboth⟩, rfl⟩, rfl, henv⟩

theorem Mends.meets {depth more : Nat} (h : Mends nodes read pos t stop) (hd : depth ≤ more)
    (ih : ∀ p u q, read p = .ok (u, q) →
      Walk.Meets (walkAt more nodes frame) p q (u.valueBy (Enter.byWalk depth) frame)) :
    Walk.Meets (walkAt (more + 1) nodes frame) pos stop (t.valueBy (Enter.byWalk depth) frame) := by
  intro env v hv
  cases h with
  | whole hreads => exact hreads.meets hd ih env v hv
  | missing hn =>
    cases hv
    simp only [walkAt, hn, Literal.value_number]
  | marker hn hnode =>
    cases hv
    obtain ⟨d, rfl | rfl⟩ := hnode <;> simp only [walkAt, hn, Literal.value_number]
  | foldOfNothing hn hvar =>
    cases hv
    simp only [walkAt, hn, Walk.loop, hvar, Literal.value_number]
  | @foldOfOther kind node hn hnode hother =>
    cases hv
    simp only [walkAt, hn, Walk.loop, hnode, Literal.value_number]
  | branch hn hc hspans =>
    obtain ⟨⟨x, hx⟩, rfl⟩ := valueBy_branch_nan.1 hv
    simp only [walkAt, hn]
    exact Walk.branch_of_unspanned (ih _ _ _ hc _ _ hx) hspans
  | loop hn hvar hl hu hspan =>
    obtain ⟨⟨x, hx⟩, rfl⟩ := valueBy_branch_nan.1 hv
    obtain ⟨lo, hlo, hx⟩ := Walk.bind_eq_some.1 hx
    obtain ⟨hi, hhi, -⟩ := Walk.bind_eq_some.1 hx
    simp only [walkAt, hn]
    exact Walk.loop_of_unspanned hvar (ih _ _ _ hl _ _ hlo) (ih _ _ _ hu _ _ hhi) hspan

end

end

theorem mendAt_of_lt (nodes : Array Node) (levels pos : Nat) (h : nodes.size < levels + pos) :
    mendAt nodes levels pos = .ok (mendFrom nodes levels pos) :=
  if_pos h

theorem decodeOperands_mendAt {nodes : Array Node} {levels : Nat} (count : Nat) :
    ∀ {pos}, nodes.size < levels + pos → decodeOperands (mendAt nodes levels) count pos
      = .ok (mendOperands (mendFrom nodes levels) count pos) := by
  induction count with
  | zero => exact fun _ => rfl
  | succ count ih =>
    intro pos h
    have hstop := mendFrom_stop nodes levels pos
    rw [decodeOperands, mendAt_of_lt nodes levels pos h]
    change (decodeOperands (mendAt nodes levels) count (mendFrom nodes levels pos).2 >>= _) = _
    rw [ih (by omega)]
    rfl

theorem mends_mendFrom {nodes : Array Node} {levels pos : Nat} (h : nodes.size < levels + 1 + pos) :
    Mends nodes (mendAt nodes levels) pos (mendFrom nodes (levels + 1) pos).1
      (mendFrom nodes (levels + 1) pos).2 := by
  have hstop := mendFrom_stop nodes levels
  have hfirst := hstop (pos + 1)
  -- operands start further right and nothing is read backwards, so the levels below are enough
  rw [mendFrom]
  split
  · rename_i hn
    exact .missing hn
  · rename_i hn
    exact .whole (.literal hn)
  · rename_i hn
    exact .whole (.ref hn)
  · rename_i hn
    exact .whole (.arg hn)
  · rename_i hn
    exact .marker hn ⟨_, .inl rfl⟩
  · rename_i hn
    exact .marker hn ⟨_, .inr rfl⟩
  · rename_i hn
    exact .whole (.call hn (decodeOperands_mendAt _ (by omega)))
  · rename_i hn
    exact .whole (.unary hn (mendAt_of_lt _ _ _ (by omega)))
  · rename_i hn
    exact .whole (.binary hn (mendAt_of_lt _ _ _ (by omega)) (mendAt_of_lt _ _ _ (by omega)))
  · rename_i hn
    have hc := mendAt_of_lt nodes levels (pos + 1) (by omega)
    dsimp only
    split
    · rename_i hyes
      exact .branch hn hc fun yes no h => by rw [hyes] at h; cases h
    · rename_i yes hyes
      obtain ⟨hystart, hystop, -⟩ := Span.at?_eq_ok hyes
      split
      · rename_i hno
        refine .branch hn hc fun yes' no h => ?_
        cases hyes.symm.trans h
        rw [hno]
        exact fun h => nomatch h
      · rename_i no hno
        obtain ⟨hnstart, -, -⟩ := Span.at?_eq_ok hno
        exact .whole (.branch hn hc hyes (mendAt_of_lt _ _ _ (by simp only [Span.bodyStart]; omega)) hno
          (mendAt_of_lt _ _ _ (by simp only [Span.bodyStart]; omega)))
  · rename_i kind hn
    have hlower := hstop (pos + 2)
    have hupper := hstop (mendFrom nodes levels (pos + 2)).2
    split
    · rename_i hvar
      exact .foldOfNothing hn hvar
    · rename_i v hvar
      have hl := mendAt_of_lt nodes levels (pos + 2) (by omega)
      have hu := mendAt_of_lt nodes levels (mendFrom nodes levels (pos + 2)).2 (by omega)
      dsimp only
      split
      · rename_i hspan
        exact .loop hn hvar hl hu hspan
      · rename_i span hspan
        obtain ⟨hstart, -, -⟩ := Span.at?_eq_ok hspan
        exact .whole (.loop hn hvar hl hu hspan
          (mendAt_of_lt _ _ _ (by simp only [Span.bodyStart]; omega)))
    · rename_i node hother hnode
      exact .foldOfOther hn hnode fun a ha => hother a ha

theorem mends_of_succ {nodes : Array Node} {levels pos stop : Nat} {t : Term}
    (h : mendAt nodes (levels + 1) pos = .ok (t, stop)) : Mends nodes (mendAt nodes levels) pos t stop := by
  unfold mendAt at h
  split at h
  · rename_i hlt
    have hmends := mends_mendFrom hlt
    rwa [Except.ok.inj h] at hmends
  · cases h

theorem mends_of_zero {nodes : Array Node} {pos stop : Nat} {t : Term}
    (h : mendAt nodes 0 pos = .ok (t, stop)) :
    Mends nodes (fun p => .error (.truncated p)) pos t stop := by
  unfold mendAt at h
  split at h
  · cases h
    exact .missing (Array.getElem?_eq_none (by omega))
  · cases h

section

variable [SpecialFunctions]

/-- Where the levels are enough, a walk finds the value of what the operand is taken for. -/
theorem walkAt_finds_mended {nodes : Array Node} {frame : Frame} (depth : Nat) :
    ∀ {enter : Enter}, (∀ d, d < depth → Enter.Le (Enter.byWalk d) enter) →
      ∀ {levels pos t stop}, mendAt nodes levels pos = .ok (t, stop) →
        Walk.Finds (walkAt depth nodes frame) pos stop (t.valueBy enter frame) := by
  induction depth with
  | zero => intro _ _ _ _ _ _ _ env w hw; cases hw
  | succ depth ih =>
    intro enter he levels pos t stop h
    have henter := he depth (Nat.lt_succ_self depth)
    cases levels with
    | zero => exact (mends_of_zero h).finds henter fun _ _ _ h => nomatch h
    | succ levels =>
      exact (mends_of_succ h).finds henter fun _ _ _ h =>
        ih (fun d hd => he d (Nat.lt_succ_of_lt hd)) h

theorem walkAt_meets_mended {nodes : Array Node} {frame : Frame} (depth levels : Nat) :
    ∀ {pos t stop}, mendAt nodes levels pos = .ok (t, stop) →
      Walk.Meets (walkAt (depth + levels + 1) nodes frame) pos stop
        (t.valueBy (Enter.byWalk depth) frame) := by
  induction levels with
  | zero =>
    intro pos t stop h
    exact (mends_of_zero h).meets le_rfl fun _ _ _ h => nomatch h
  | succ levels ih =>
    intro pos t stop h
    exact (mends_of_succ h).meets (by omega) fun _ _ _ h => ih h

end

theorem mendOperands_of_decodeOperands {nodes : Array Node} {levels : Nat}
    (h : ∀ {pos t stop}, decodeFrom nodes levels pos = .ok (t, stop) →
      mendFrom nodes levels pos = (t, stop)) (count : Nat) : ∀ {pos ts stop},
    decodeOperands (decodeFrom nodes levels) count pos = .ok (ts, stop) →
      mendOperands (mendFrom nodes levels) count pos = (ts, stop) := by
  induction count with
  | zero =>
    intro pos ts stop hts
    cases hts
    rfl
  | succ count ih =>
    intro pos ts stop hts
    obtain ⟨⟨t, mid⟩, ht, hts⟩ := exists_of_bind_eq_ok hts
    obtain ⟨⟨rest, last⟩, hrest, hts⟩ := exists_of_bind_eq_ok hts
    cases hts
    rw [mendOperands, h ht]
    dsimp only
    rw [ih hrest]

theorem mendFrom_of_decodeFrom {nodes : Array Node} (levels : Nat) : ∀ {pos t stop},
    decodeFrom nodes levels pos = .ok (t, stop) → mendFrom nodes levels pos = (t, stop) := by
  induction levels with
  | zero => intro pos t stop h; cases h
  | succ levels ih =>
    intro pos t stop h
    rw [mendFrom]
    cases reads_of_decodeFrom h with
    | literal hn | ref hn | arg hn => simp only [hn]
    | unary hn ha => simp only [hn, ih ha]
    | binary hn ha hb => simp only [hn, ih ha, ih hb]
    | branch hn hc hyes ha hno hb => simp only [hn, ih hc, hyes, ih ha, hno, ih hb]
    | loop hn hvar hl hu hspan hb => simp only [hn, hvar, ih hl, ih hu, hspan, ih hb]
    | call hn hargs => simp only [hn, mendOperands_of_decodeOperands ih _ hargs]

end Term

namespace Expression

variable [SpecialFunctions]

def mended (e : Expression) : Term :=
  (Term.mendFrom e.nodes (e.nodes.size + 1) 0).1

theorem gives_iff_mended (e : Expression) (frame : Frame) (env : Environment) (v : Float) :
    e.Gives frame env v ↔ e.mended.HasValue frame env v := by
  have hmend := Term.mendAt_of_lt e.nodes (e.nodes.size + 1) 0 (by omega)
  constructor
  · rintro ⟨w, ⟨depth, hw⟩, rfl⟩
    have he : ∀ d, d < depth → Enter.Le (Enter.byWalk d) (Term.callValue depth) :=
      fun d hd f values env v h =>
        Term.callValue_mono hd _ _ _ _ (Term.byWalk_le_callValue d f values env v h)
    exact ⟨depth, (Term.walkAt_finds_mended depth he hmend env w hw).1⟩
  · rintro ⟨depth, hv⟩
    obtain ⟨d, hd⟩ := Term.exists_valueBy_byWalk (Term.exists_byWalk_of_callValue depth) hv
    exact ⟨_, ⟨_, Term.walkAt_meets_mended d _ hmend env v hd⟩, rfl⟩

end Expression

/-! NaN that nothing absorbs -/

namespace Double

open Float.Model

theorem unpack_nan : nan.toModel.unpack = .notANumber :=
  isNaN_iff.1 (by decide)

theorem ofModel_pack_nan : Float.ofModel (.pack .notANumber) = nan :=
  eq_of_bits (by decide)

theorem nan_add (x : Float) : nan + x = nan := by
  change Float.ofModel (.pack (UnpackedFloat.add Format.binary64 _ _)) = nan
  rw [unpack_nan]
  exact ofModel_pack_nan

theorem add_nan (x : Float) : x + nan = nan := by
  change Float.ofModel (.pack (UnpackedFloat.add Format.binary64 _ _)) = nan
  rw [unpack_nan]
  cases x.toModel.unpack <;> exact ofModel_pack_nan

theorem nan_mul (x : Float) : nan * x = nan := by
  change Float.ofModel (.pack (UnpackedFloat.mul Format.binary64 _ _)) = nan
  rw [unpack_nan]
  exact ofModel_pack_nan

theorem mul_nan (x : Float) : x * nan = nan := by
  change Float.ofModel (.pack (UnpackedFloat.mul Format.binary64 _ _)) = nan
  rw [unpack_nan]
  cases x.toModel.unpack <;> exact ofModel_pack_nan

end Double

theorem Fold.join_nan (kind : Fold) (acc : Float) : kind.join acc nan = nan := by
  cases kind
  · exact Double.add_nan acc
  · exact Double.mul_nan acc

theorem Fold.nan_join (kind : Fold) (x : Float) : kind.join nan x = nan := by
  cases kind
  · exact Double.nan_add x
  · exact Double.nan_mul x

namespace LoopRange

theorem ofBounds?_nan_left (upper : Float) : ofBounds? nan upper = none := by
  have h : FloatParts.ofFloat? nan = none := by decide
  rw [ofBounds?, h]
  rfl

theorem ofBounds?_nan_right (lower : Float) : ofBounds? lower nan = none := by
  have h : FloatParts.ofFloat? nan = none := by decide
  rw [ofBounds?, h]
  cases FloatParts.ofFloat? lower <;> rfl

end LoopRange

namespace Joins

variable {kind : Fold} {value : Int64 → Float → Prop}

theorem eq_nan : ∀ {is : List Int64} {v : Float}, Joins kind value is nan v → v = nan := by
  intro is
  induction is with
  | nil => exact fun h => h
  | cons i is ih =>
    rintro v ⟨x, -, h⟩
    rw [kind.nan_join] at h
    exact ih h

theorem eq_nan_of_mem {i : Int64} (hi : ∀ x, value i x → x = nan) : ∀ {is : List Int64} {acc v : Float},
    i ∈ is → Joins kind value is acc v → v = nan := by
  intro is
  induction is with
  | nil => exact fun h => by cases h
  | cons j is ih =>
    rintro acc v hmem ⟨x, hx, h⟩
    rcases List.mem_cons.1 hmem with rfl | hmem
    · rw [hi x hx, kind.join_nan] at h
      exact h.eq_nan
    · exact ih hmem h

end Joins

section

variable [SpecialFunctions]

def UnaryOp.Strict (op : UnaryOp) : Prop :=
  (op.apply nan).isNaN = true

/-- The operator gives NaN as soon as one operand is NaN. -/
def BinaryOp.Strict (op : BinaryOp) : Prop :=
  ∀ x, (op.apply nan x).isNaN = true ∧ (op.apply x nan).isNaN = true

namespace Term

/-- A NaN among what the value of the term is made from is the value of the term. The arguments of a
call are not: the function need not look at them. -/
def PassesNaN : Term → Prop
  | unary op _ => op.Strict
  | binary op _ _ => op.Strict
  | call _ _ => False
  | _ => True

/-- The evaluation of the first term comes to the second, and a NaN there is a NaN of the first. -/
inductive Exposes (frame : Frame) : Term → Environment → Term → Environment → Prop
  | self (t : Term) (env : Environment) : Exposes frame t env t env
  | step {t s u : Term} {env env' env'' : Environment} (hp : t.PassesNaN)
    (h : Evaluates frame t env s env') (h' : Exposes frame s env' u env'') : Exposes frame t env u env''

variable {frame : Frame} {t s : Term} {env env' : Environment} {v : Float}

theorem eq_nan_of_evaluates (hp : t.PassesNaN) (h : Evaluates frame t env s env')
    (hs : ∀ x, s.HasValue frame env' x → x = nan) (hv : t.HasValue frame env v) : v = nan := by
  cases h with
  | operand =>
    obtain ⟨x, hx, rfl⟩ := hasValue_unary.1 hv
    rw [hs x hx]
    exact Double.eq_nan_of_isNaN hp
  | left =>
    obtain ⟨x, hx, y, -, rfl⟩ := hasValue_binary.1 hv
    rw [hs x hx]
    exact Double.eq_nan_of_isNaN (hp y).1
  | right =>
    obtain ⟨x, -, y, hy, rfl⟩ := hasValue_binary.1 hv
    rw [hs y hy]
    exact Double.eq_nan_of_isNaN (hp x).2
  | condition =>
    obtain ⟨x, hx, h⟩ := hasValue_branch.1 hv
    rw [hs x hx, if_pos (by decide)] at h
    exact h
  | yes hx hnan hyes =>
    obtain ⟨x, hx', h⟩ := hasValue_branch.1 hv
    obtain rfl := hasValue_unique hx hx'
    rw [if_neg hnan, if_pos hyes] at h
    exact hs v h
  | no hx hnan hno =>
    obtain ⟨x, hx', h⟩ := hasValue_branch.1 hv
    obtain rfl := hasValue_unique hx hx'
    rw [if_neg hnan, if_neg hno] at h
    exact hs v h
  | lower =>
    obtain ⟨lo, hlo, hi, -, h⟩ := hasValue_loop.1 hv
    rw [hs lo hlo, LoopRange.ofBounds?_nan_left] at h
    exact h
  | upper =>
    obtain ⟨lo, -, hi, hhi, h⟩ := hasValue_loop.1 hv
    rw [hs hi hhi, LoopRange.ofBounds?_nan_right] at h
    exact h
  | body hlo hhi hrange hmem =>
    obtain ⟨lo, hlo', hi, hhi', h⟩ := hasValue_loop.1 hv
    obtain rfl := hasValue_unique hlo hlo'
    obtain rfl := hasValue_unique hhi hhi'
    rw [hrange] at h
    exact h.eq_nan_of_mem hs hmem
  | argument => exact hp.elim

theorem eq_nan_of_exposes (h : Exposes frame t env (const nan) env') :
    ∀ {v}, t.HasValue frame env v → v = nan := by
  generalize hs : const nan = s at h
  induction h with
  | self =>
    subst hs
    exact fun hv => hasValue_const.1 hv
  | step hp h _ ih => exact fun hv => eq_nan_of_evaluates hp h (fun x hx => ih hs hx) hv

end Term

def Node.Strict : Node → Prop
  | .op (.unary head) => head.Strict
  | .op (.binary head) => head.Strict
  | .op .branch | .op (.fold _) | .call _ _ => False
  | _ => True

namespace Term

omit [SpecialFunctions] in
theorem checkOperands_one (check : Nat → Except Defect Nat) (pos : Nat) :
    checkOperands check 1 pos = check pos := by
  rw [checkOperands]
  cases check pos <;> rfl

omit [SpecialFunctions] in
theorem checkOperands_two (check : Nat → Except Defect Nat) (pos : Nat) :
    checkOperands check 2 pos = check pos >>= check := by
  rw [checkOperands]
  exact bind_congr fun p => checkOperands_one check p

/-- Among strict nodes the check ends where the mended operand ends, and what it refuses is a NaN that
nothing absorbs. -/
theorem exposes_of_check {nodes : Array Node} (strict : ∀ node ∈ nodes, node.Strict) (depth : Nat) :
    ∀ pos, (∀ stop, checkFrom nodes depth pos = .ok stop → (mendFrom nodes depth pos).2 = stop) ∧
      ∀ d, checkFrom nodes depth pos = .error d → ∀ frame env,
        Exposes frame (mendFrom nodes depth pos).1 env (const nan) env := by
  induction depth with
  | zero => exact fun pos => ⟨fun _ h => (by cases h), fun _ _ frame env => .self _ _⟩
  | succ depth ih =>
    intro pos
    rw [checkFrom, mendFrom]
    cases hn : nodes[pos]? with
    | none => exact ⟨fun _ h => (by cases h), fun _ _ frame env => .self _ _⟩
    | some node =>
      have hstrict := strict node (Array.mem_of_getElem? hn)
      cases node with
      | literal | ref | arg => exact ⟨fun _ h => Except.ok.inj h, fun _ h => (by cases h)⟩
      | opening | closing => exact ⟨fun _ h => (by cases h), fun _ _ frame env => .self _ _⟩
      | call => exact hstrict.elim
      | op op =>
        cases op with
        | branch | fold => exact hstrict.elim
        | unary op =>
          dsimp only [Operator.arity]
          rw [checkOperands_one]
          obtain ⟨ends, exposes⟩ := ih (pos + 1)
          exact ⟨ends, fun d h frame env => .step hstrict .operand (exposes d h frame env)⟩
        | binary op =>
          dsimp only [Operator.arity]
          rw [checkOperands_two]
          obtain ⟨ends, exposes⟩ := ih (pos + 1)
          cases hleft : checkFrom nodes depth (pos + 1) with
          | error d =>
            exact ⟨fun _ h => (by cases h),
              fun _ _ frame env => .step hstrict .left (exposes d hleft frame env)⟩
          | ok mid =>
            obtain rfl := ends mid hleft
            obtain ⟨ends, exposes⟩ := ih (mendFrom nodes depth (pos + 1)).2
            exact ⟨ends, fun d h frame env => .step hstrict .right (exposes d h frame env)⟩

end Term

namespace Expression

variable {e : Expression} {env : Environment} {v : Float}

/-- Evaluation gives exactly the value of the term that the nodes are taken for. -/
theorem evaluates_iff_mended : (∃ depth after, e.evalWithin depth env = some (v, after)) ↔
    e.mended.HasValue [] env v := by
  rw [← gives_iff_mended]
  unfold evalWithin
  cases hnull : e.isNull with
  | true =>
    obtain rfl := (isNull_iff e).1 hnull
    constructor
    · rintro ⟨depth, after, h⟩
      cases h
      exact ⟨_, ⟨1, rfl⟩, rfl⟩
    · rintro ⟨w, ⟨depth, hw⟩, rfl⟩
      cases depth with
      | zero => cases hw
      | succ depth =>
        cases hw
        exact ⟨0, env, rfl⟩
  | false =>
    constructor
    · rintro ⟨depth, after, h⟩
      obtain ⟨w, hw, h⟩ := Option.map_eq_some_iff.1 h
      cases h
      exact ⟨w, ⟨depth, hw⟩, rfl⟩
    · rintro ⟨w, ⟨depth, hw⟩, rfl⟩
      exact ⟨depth, w.env, Option.map_eq_some_iff.2 ⟨w, hw, rfl⟩⟩

omit [SpecialFunctions] in
theorem mended_of_decode {t : Term} (h : Term.decode e = .ok t) : e.mended = t := by
  obtain ⟨stop, hread⟩ := Term.exists_decodeFrom h
  rw [mended, Term.mendFrom_of_decodeFrom _ hread]

theorem exposes_of_check {d : Defect} (h : e.check = .error d)
    (strict : ∀ node ∈ e.nodes, node.Strict) (htrailing : ∀ stop left, d ≠ .trailing stop left)
    (frame : Frame) (env : Environment) : Term.Exposes frame e.mended env (.const nan) env := by
  refine (Term.exposes_of_check strict (e.nodes.size + 1) 0).2 d ?_ frame env
  unfold check checkBuffer checkOperandAt at h
  cases hcheck : checkFrom e.nodes (e.nodes.size + 1) 0 with
  | error d' =>
    rw [hcheck] at h
    cases h
    rfl
  | ok stop =>
    rw [hcheck] at h
    change (if stop = e.nodes.size then .ok () else .error (.trailing stop (e.nodes.size - stop)))
      = Except.error d at h
    split at h
    · cases h
    · exact absurd (Except.error.inj h).symm (htrailing _ _)

end Expression

/-- **A malformed buffer is evaluated as if NaN stood in place of each defect that the walk comes to**,
and a buffer without defects as what it holds. Null is NaN. A NaN that nothing absorbs is the value, so
among leaves and operators that absorb no NaN whatever the check refuses is NaN, but for nodes that
follow the one expression. -/
theorem evaluation_of_any_nodes (e : Expression) (env : Environment) (v : Float) :
    ((∃ depth after, e.evalWithin depth env = some (v, after)) ↔ e.mended.HasValue [] env v) ∧
    (∀ t, Term.decode e = .ok t → e.mended = t) ∧
    (e.isNull = true → ∀ depth, e.evalWithin depth env = some (nan, env)) ∧
    (∀ env', Term.Exposes [] e.mended env (.const nan) env' →
      ∀ depth after, e.evalWithin depth env = some (v, after) → v.isNaN = true) ∧
    ∀ d, e.check = .error d → (∀ node ∈ e.nodes, node.Strict) →
      (∀ stop left, d ≠ .trailing stop left) →
      ∀ depth after, e.evalWithin depth env = some (v, after) → v.isNaN = true := by
  have exposed (env' : Environment) (h : Term.Exposes [] e.mended env (.const nan) env')
      (depth : Nat) (after : Environment) (hv : e.evalWithin depth env = some (v, after)) :
      v.isNaN = true := by
    rw [Term.eq_nan_of_exposes h (Expression.evaluates_iff_mended.1 ⟨depth, after, hv⟩)]
    decide
  exact ⟨Expression.evaluates_iff_mended, fun t => Expression.mended_of_decode,
    fun h depth => if_pos h, exposed,
    fun d h strict htrailing => exposed env (Expression.exposes_of_check h strict htrailing [] env)⟩

theorem BinaryOp.strict_add : BinaryOp.add.Strict := by
  intro x
  change (nan + x).isNaN = true ∧ (x + nan).isNaN = true
  rw [Double.nan_add, Double.add_nan]
  decide

end

open Series

def missingOperand : Expression where
  nodes := #[.op (.binary .add), .const 1.0]

/-- A branch that takes the first of two spans, where a closing node stands in place of the body. -/
def missingBody : Expression where
  nodes := #[.op .branch, .const 1.0, .opening 1, .closing 1, .opening 2, .const 2.0, .closing 2]

/-- A missing operand, a missing body and null are NaN. -/
theorem evaluation_of_missing_nodes :
    (missingOperand.check = .error (.truncated 2) ∧ (∀ node ∈ missingOperand.nodes, node.Strict) ∧
      ∀ depth v after, missingOperand.evalWithin depth Environment.empty = some (v, after) →
        v.isNaN = true) ∧
    (missingBody.mended = .branch (.const 1.0) (.const nan) (.const 2.0) ∧
      ∀ depth v after, missingBody.evalWithin depth Environment.empty = some (v, after) →
        v.isNaN = true) ∧
    Expression.null.evalWithin 0 Environment.empty = some (nan, Environment.empty) ∧
    (Term.const 2.0).encode.mended = .const 2.0 := by
  have strict : ∀ node ∈ missingOperand.nodes, node.Strict := by
    simp [missingOperand, Node.Strict, BinaryOp.strict_add]
  have body : missingBody.mended = .branch (.const 1.0) (.const nan) (.const 2.0) := rfl
  have exposed : Term.Exposes [] missingBody.mended Environment.empty (.const nan)
      Environment.empty := by
    rw [body]
    exact .step trivial (.yes (Term.hasValue_const.2 rfl) (by decide) (by decide)) (.self _ _)
  refine ⟨⟨rfl, strict, fun depth v after => ?_⟩, ⟨body, fun depth v after => ?_⟩, ?_, ?_⟩
  · obtain ⟨-, -, -, -, refused⟩ := evaluation_of_any_nodes missingOperand Environment.empty v
    exact refused (.truncated 2) rfl strict (fun _ _ h => nomatch h) depth after
  · obtain ⟨-, -, -, passed, -⟩ := evaluation_of_any_nodes missingBody Environment.empty v
    exact passed Environment.empty exposed depth after
  · exact (evaluation_of_any_nodes Expression.null Environment.empty nan).2.2.1 rfl 0
  · exact (evaluation_of_any_nodes (Term.const 2.0).encode Environment.empty nan).2.1 _ rfl

def trailingNode : Expression where
  nodes := #[.op (.unary .neg), .const 1.0, .const 2.0]

/-- The check refuses a node behind the one expression, and evaluation does not come to it: a malformed
buffer with a number for a value. -/
theorem trailingNode_ignored :
    trailingNode.check = .error (.trailing 2 1) ∧
    trailingNode.evalWithin 2 Environment.empty = some (-1.0, Environment.empty) ∧
    (-1.0 : Float).isNaN = false := by
  decide +kernel

end PrefixCalculus
