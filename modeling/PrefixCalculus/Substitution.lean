import PrefixCalculus.Term
set_option autoImplicit false

/-!
Replacing variables, parameters and calls of an expression. The nodes are walked once and put together
again with the replacements in place, so every span gets its new distances; the walk keeps the function
of the last call that it replaced. A loop binds its variable in its body and not in its bounds. A null
replacement makes the whole expression null. Main statement: what the walk puts together is the term
that is read there, written out with the replacements.
-/

namespace PrefixCalculus

/-- What to put in place of variables, parameters and calls; `none` leaves them as they are. -/
structure Replacement where
  ref : Address → Option Expression
  arg : UInt32 → Option Expression
  call : FunctionId → List Expression → Option Expression

namespace Replacement

def keep : Replacement where
  ref _ := none
  arg _ := none
  call _ _ := none

def under (r : Replacement) (address : Address) : Replacement :=
  { r with ref := fun a => if a = address then none else r.ref a }

def ofVar (address : Address) (value : Expression) : Replacement :=
  { keep with ref := fun a => if a = address then some value else none }

def ofArgs (args : List Expression) : Replacement :=
  { keep with arg := fun i => args[i.toNat]? }

end Replacement

namespace Term

mutual

def encodeWith (r : Replacement) : Term → Expression
  | literal x => .literal x
  | ref address => (r.ref address).getD (.var address)
  | arg index => (r.arg index).getD (.arg index)
  | unary op operand => .unary op (operand.encodeWith r)
  | binary op lhs rhs => .binary op (lhs.encodeWith r) (rhs.encodeWith r)
  | branch condition yes no =>
    .branch (condition.encodeWith r) (yes.encodeWith r) (no.encodeWith r)
  | loop kind address lower upper body =>
    .loop kind address (lower.encodeWith r) (upper.encodeWith r) (body.encodeWith (r.under address))
  | call f args => (r.call f (encodeAllWith r args)).getD (.call f (encodeAllWith r args))

def encodeAllWith (r : Replacement) : List Term → List Expression
  | [] => []
  | t :: ts => t.encodeWith r :: encodeAllWith r ts

end

mutual

/-- The function of the last call that is replaced, after another one before the term. -/
def lastReplaced (r : Replacement) : Term → Option FunctionId → Option FunctionId
  | literal _, last | ref _, last | arg _, last => last
  | unary _ operand, last => operand.lastReplaced r last
  | binary _ lhs rhs, last => rhs.lastReplaced r (lhs.lastReplaced r last)
  | branch condition yes no, last =>
    no.lastReplaced r (yes.lastReplaced r (condition.lastReplaced r last))
  | loop _ address lower upper body, last =>
    body.lastReplaced (r.under address) (upper.lastReplaced r (lower.lastReplaced r last))
  | call f args, last =>
    match r.call f (encodeAllWith r args) with
    | some _ => some f
    | none => lastReplacedAll r args last

def lastReplacedAll (r : Replacement) : List Term → Option FunctionId → Option FunctionId
  | [], last => last
  | t :: ts, last => lastReplacedAll r ts (t.lastReplaced r last)

end

theorem under_keep (address : Address) : Replacement.keep.under address = Replacement.keep := by
  simp [Replacement.under, Replacement.keep]

mutual

theorem encodeWith_keep : ∀ t : Term, t.encodeWith Replacement.keep = t.encode
  | literal _ => rfl
  | ref _ => rfl
  | arg _ => rfl
  | unary op operand => by simp [encodeWith, encode, encodeWith_keep operand]
  | binary op lhs rhs => by simp [encodeWith, encode, encodeWith_keep lhs, encodeWith_keep rhs]
  | branch condition yes no => by
    simp [encodeWith, encode, encodeWith_keep condition, encodeWith_keep yes, encodeWith_keep no]
  | loop kind address lower upper body => by
    simp [encodeWith, encode, under_keep, encodeWith_keep lower, encodeWith_keep upper, encodeWith_keep body]
  | call f args => by
    show Expression.call f (encodeAllWith Replacement.keep args) = _
    rw [encodeAllWith_keep args, encode]

theorem encodeAllWith_keep : ∀ ts : List Term, encodeAllWith Replacement.keep ts = encodeAll ts
  | [] => rfl
  | t :: ts => by simp [encodeAllWith, encodeAll, encodeWith_keep t, encodeAllWith_keep ts]

end

end Term

namespace Expression

/-- Putting together, with the function of the last call that was replaced. -/
abbrev Rebuild := StateT (Option FunctionId) (Except Defect)

def rebuildFrom (nodes : Array Node) : Nat → Replacement → Nat → Rebuild (Expression × Nat)
  | 0, _, pos => throw (.truncated pos)
  | depth + 1, r, pos =>
    match nodes[pos]? with
    | none => throw (.truncated pos)
    | some (.literal x) => pure (literal x, pos + 1)
    | some (.ref address) => pure ((r.ref address).getD (var address), pos + 1)
    | some (.arg index) => pure ((r.arg index).getD (arg index), pos + 1)
    | some (.opening _) | some (.closing _) => throw (.strayMarker pos)
    | some (.call f argc) => do
      let (args, pos) ← readRow (rebuildFrom nodes depth r) argc.toNat (pos + 1)
      match r.call f args with
      | some e =>
        set (some f)
        return (e, pos)
      | none => return (call f args, pos)
    | some (.op (.unary op)) => do
      let (operand, pos) ← rebuildFrom nodes depth r (pos + 1)
      return (unary op operand, pos)
    | some (.op (.binary op)) => do
      let (lhs, pos) ← rebuildFrom nodes depth r (pos + 1)
      let (rhs, pos) ← rebuildFrom nodes depth r pos
      return (binary op lhs rhs, pos)
    | some (.op .branch) => do
      let (condition, pos) ← rebuildFrom nodes depth r (pos + 1)
      let first ← Span.at? nodes pos
      let (yes, _) ← rebuildFrom nodes depth r first.bodyStart
      let second ← Span.at? nodes first.stop
      let (no, _) ← rebuildFrom nodes depth r second.bodyStart
      return (branch condition yes no, second.stop)
    | some (.op (.fold kind)) =>
      match nodes[pos + 1]? with
      | some (.ref address) => do
        let (lower, pos) ← rebuildFrom nodes depth r (pos + 2)
        let (upper, pos) ← rebuildFrom nodes depth r pos
        let span ← Span.at? nodes pos
        let (body, _) ← rebuildFrom nodes depth (r.under address) span.bodyStart
        return (loop kind address lower upper body, span.stop)
      | _ => throw (.variableExpected pos)

def rebuildAt (nodes : Array Node) (r : Replacement) (pos : Nat) : Except Defect (Expression × Nat) :=
  (rebuildFrom nodes (nodes.size + 1) r pos).run' none

def rebuild (r : Replacement) (e : Expression) : Except Defect (Expression × Option FunctionId) :=
  if e.isNull then .ok (null, none)
  else do
    let ((e, _), last) ← (rebuildFrom e.nodes (e.nodes.size + 1) r 0).run none
    return (e, last)

def withReplacements (r : Replacement) (e : Expression) : Except Defect Expression :=
  (e.rebuild r).map Prod.fst

section

variable {nodes : Array Node}

theorem rebuildRow_eq {r : Replacement} {rebuild : Nat → Rebuild (Expression × Nat)}
    {read : Nat → Except Defect (Term × Nat)}
    (h : ∀ pos last, (rebuild pos).run last
      = (fun (t, stop) => ((t.encodeWith r, stop), t.lastReplaced r last)) <$> read pos) (count : Nat) :
    ∀ pos last, (readRow rebuild count pos).run last
      = (fun (ts, stop) => ((Term.encodeAllWith r ts, stop), Term.lastReplacedAll r ts last)) <$>
        Term.decodeOperands read count pos := by
  induction count with
  | zero => exact fun _ _ => rfl
  | succ count ih =>
    intro pos last
    simp only [readRow, Term.decodeOperands, StateT.run_bind, StateT.run_pure, h, ih, bind_map_left,
      map_bind, map_pure, Term.encodeAllWith, Term.lastReplacedAll]

theorem rebuildFrom_eq (depth : Nat) : ∀ (r : Replacement) (pos : Nat) (last : Option FunctionId),
    (rebuildFrom nodes depth r pos).run last
      = (fun (t, stop) => ((t.encodeWith r, stop), t.lastReplaced r last)) <$>
        Term.decodeFrom nodes depth pos := by
  -- both readers look at the same nodes in the same order, so it is enough to compare heads
  induction depth with
  | zero => exact fun _ _ _ => rfl
  | succ depth ih =>
    intro r pos last
    rw [rebuildFrom, Term.decodeFrom]
    cases nodes[pos]? with
    | none => rfl
    | some node =>
      cases node with
      | literal | ref | arg | opening | closing => rfl
      | call f argc =>
        simp only [StateT.run_bind, rebuildRow_eq (ih r), bind_map_left, map_bind, map_pure]
        refine bind_congr fun (ts, stop) => ?_
        rw [Term.encodeWith, Term.lastReplaced]
        cases r.call f (Term.encodeAllWith r ts) <;> rfl
      | op op =>
        cases op with
        | unary | binary | branch =>
          simp only [StateT.run_bind, StateT.run_pure, StateT.run_monadLift, monadLift_self, ih,
            bind_map_left, bind_assoc, pure_bind, map_bind, map_pure, Term.encodeWith,
            Term.lastReplaced]
        | fold kind =>
          dsimp only
          cases nodes[pos + 1]? with
          | none => rfl
          | some node =>
            cases node with
            | ref a =>
              simp only [StateT.run_bind, StateT.run_pure, StateT.run_monadLift, monadLift_self, ih,
                bind_map_left, bind_assoc, pure_bind, map_bind, map_pure, Term.encodeWith,
                Term.lastReplaced]
            | _ => rfl

theorem rebuildAt_eq (r : Replacement) (pos : Nat) : rebuildAt nodes r pos
    = (fun (t, stop) => (t.encodeWith r, stop)) <$> Term.decodeAt nodes pos := by
  rw [rebuildAt, StateT.run'_eq, rebuildFrom_eq, Term.decodeAt, ← comp_map]
  rfl

/-- The term that an expression starts with, written out with the replacements. -/
theorem rebuild_eq (r : Replacement) {e : Expression} (h : e.isNull = false) :
    e.rebuild r = (Term.decode e).map fun t => (t.encodeWith r, t.lastReplaced r none) := by
  rw [rebuild, h, if_neg Bool.false_ne_true, rebuildFrom_eq, Term.decode, Term.decodeAt]
  cases Term.decodeFrom e.nodes (e.nodes.size + 1) 0 <;> rfl

theorem withReplacements_eq (r : Replacement) {e : Expression} (h : e.isNull = false) :
    e.withReplacements r = (Term.decode e).map (Term.encodeWith r) := by
  rw [withReplacements, rebuild_eq r h]
  cases Term.decode e <;> rfl

end

def replaceVar (e : Expression) (address : Address) (value : Expression) : Expression :=
  match e.withReplacements (Replacement.ofVar address value) with
  | .ok e => e
  | .error _ => null

def instantiate (e : Expression) (args : List Expression) : Expression :=
  match e.withReplacements (Replacement.ofArgs args) with
  | .ok e => e
  | .error _ => null

end Expression

end PrefixCalculus
