import PrefixCalculus.Expression.Printing
import PrefixCalculus.Proofs.TreeValue
set_option autoImplicit false

/-!
The document of an expression, from its nodes and from its term. Main statement: where a term is read
the walk that writes the nodes gives the document of the term and the position behind it.
-/

namespace PrefixCalculus

namespace Writer

variable {env : Environment} {nodes : Array Node}

/-- At a position the document of the term is written, up to another position. -/
def Writes (env : Environment) (write : Writer) (pos : Nat) (t : Term) (stop : Nat) : Prop :=
  ∀ depth, write pos depth = some (t.document env depth, stop)

section

variable {write : Writer} {pos stop : Nat}

theorem operand_eq {t : Term} {node : Node} (hn : nodes[pos]? = some node)
    (hbinding : node.binding = t.binding) (h : Writes env write pos t stop) (least : Nat)
    (depth : UInt8) : operand nodes write least pos depth
      = some (Term.enclosed (t.binding < least) depth (t.document env), stop) := by
  simp only [operand, hn, hbinding, h _, Option.bind_eq_bind, Option.bind_some, Term.enclosed,
    decide_eq_true_eq]
  split <;> rfl

theorem delayed_eq {t : Term} {span : Span} (hspan : Span.at? nodes pos = .ok span)
    (h : Writes env write span.bodyStart t stop) (depth : UInt8) :
    delayed nodes write pos depth = some (t.document env depth, span.stop) := by
  simp only [delayed, hspan, h _, Option.bind_eq_bind, Option.bind_some]
  rfl

theorem readRow_eq {read : Nat → Except Defect (Term × Nat)}
    (h : ∀ {pos t stop}, read pos = .ok (t, stop) → Writes env write pos t stop) (depth : UInt8)
    {count : Nat} : ∀ {pos stop : Nat} {ts : List Term},
      Term.decodeOperands read count pos = .ok (ts, stop) →
      readRow (fun pos => write pos depth) count pos = some (Term.documents env ts depth, stop) := by
  induction count with
  | zero =>
    intro pos stop ts hts
    cases hts
    rfl
  | succ count ih =>
    intro pos stop ts hts
    obtain ⟨⟨t, middle⟩, ht, hts⟩ := Term.exists_of_bind_eq_ok hts
    obtain ⟨⟨rest, stop'⟩, hrest, hts⟩ := Term.exists_of_bind_eq_ok hts
    cases hts
    simp only [readRow, h ht _, ih hrest, Option.bind_eq_bind, Option.bind_some, Term.documents]
    rfl

end

end Writer

namespace Term

variable {env : Environment} {nodes : Array Node}

theorem exists_binding_of_decodeFrom {limit pos stop : Nat} {t : Term}
    (h : decodeFrom nodes limit pos = .ok (t, stop)) :
    ∃ node, nodes[pos]? = some node ∧ node.binding = t.binding := by
  cases limit with
  | zero => cases h
  | succ limit =>
    cases reads_of_decodeFrom h with
    | @unary op _ _ hn _ => exact ⟨_, hn, by cases op <;> rfl⟩
    | literal hn | ref hn | arg hn | binary hn | branch hn | loop hn | call hn => exact ⟨_, hn, rfl⟩

/-- Where a term is read its document is written, and both end at the same position. -/
theorem writes_of_decodeFrom (limit : Nat) : ∀ {pos stop : Nat} {t : Term},
    decodeFrom nodes limit pos = .ok (t, stop) →
      (Expression.documentFrom env nodes limit).Writes env pos t stop := by
  induction limit with
  | zero => intro pos stop t h; cases h
  | succ limit ih =>
    intro pos stop t h depth
    -- an operand of a sign: what is read and how it binds
    have hoperand : ∀ {pos stop t}, decodeFrom nodes limit pos = .ok (t, stop) → ∀ least depth,
        (Expression.documentFrom env nodes limit).operand nodes least pos depth
          = some (enclosed (t.binding < least) depth (t.document env), stop) := by
      intro pos stop t h least depth
      obtain ⟨node, hn, hbinding⟩ := exists_binding_of_decodeFrom h
      exact Writer.operand_eq hn hbinding (ih h) least depth
    cases reads_of_decodeFrom h with
    | literal hn | ref hn | arg hn => simp only [Expression.documentFrom, hn, document]
    | @unary op t stop hn ht =>
      have hlisted : ∀ name, (Expression.documentFrom env nodes limit).listed name 1 (pos + 1) depth
          = some (applied name depth [t.document env (depth + 1)], stop) := by
        intro name
        simp only [Writer.listed, readRow, ih ht _, Option.bind_eq_bind, Option.bind_some]
        rfl
      cases op with
      | neg | not =>
        simp only [Expression.documentFrom, hn, Writer.signed, hoperand ht, Option.bind_eq_bind,
          Option.bind_some, document]
        rfl
      | _ => simp only [Expression.documentFrom, hn, hlisted, document]
    | @binary op a mid b stop hn ha hb =>
      simp only [Expression.documentFrom, hn, Writer.binary, document]
      cases op.symbol? with
      | some symbol =>
        simp only [hoperand ha, hoperand hb, Option.bind_eq_bind, Option.bind_some]
        rfl
      | none =>
        simp only [Writer.listed, readRow, ih ha _, ih hb _, Option.bind_eq_bind, Option.bind_some]
        rfl
    | branch hn hc hyes ha hno hb =>
      simp only [Expression.documentFrom, hn, Writer.branch, ih hc _, Writer.delayed_eq hyes (ih ha),
        Writer.delayed_eq hno (ih hb), Option.bind_eq_bind, Option.bind_some, document]
      rfl
    | @loop kind v lower p upper q span body r hn hv hl hu hspan hb =>
      have hname : Expression.documentFrom env nodes limit (pos + 1) (depth + 1)
          = some (styled .ident (variableName env v), pos + 2) := by
        cases limit with
        | zero => cases hl
        | succ limit => simp only [Expression.documentFrom, hv]
      simp only [Expression.documentFrom, hn, Writer.loop, hname, ih hl _, ih hu _,
        Writer.delayed_eq hspan (ih hb), Option.bind_eq_bind, Option.bind_some, document]
      rfl
    | call hn hargs =>
      simp only [Expression.documentFrom, hn, Writer.listed, Writer.readRow_eq ih _ hargs,
        Option.bind_eq_bind, Option.bind_some, document]
      rfl

end Term

end PrefixCalculus
