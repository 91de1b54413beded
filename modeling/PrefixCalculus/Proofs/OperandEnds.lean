import PrefixCalculus.Numeric.Series
import PrefixCalculus.Proofs.DerivedTerms
import PrefixCalculus.Proofs.DocumentWalk
import PrefixCalculus.Proofs.UniqueDecoding
set_option autoImplicit false

/-!
Where an operand ends. The check, skipping, putting together again, reading, writing, evaluation and
differentiation walk over branches, loops and calls each in a way of its own; skipping does not look
into spans at all. Main statement: where the check accepts an operand, each of the others ends where
the check does, and only evaluation and differentiation may not end.
-/

namespace PrefixCalculus

theorem add_size_le_of_stands {nodes part : Array Node} {pos : Nat} (h : Stands nodes pos part)
    (hpart : 0 < part.size) : pos + part.size ≤ nodes.size := by
  have hlast := h (part.size - 1) (by omega)
  have hsome : part[part.size - 1]? = some part[part.size - 1] := Array.getElem?_eq_getElem (by omega)
  have hin := (Array.getElem?_eq_some_iff.1 (hlast.trans hsome)).1
  omega

/-! Skipping -/

/-- So many operands from the one position on are skipped up to the other, by no more looks than there
are nodes between the two. Whatever else is pending, it is skipped from there. -/
def SkipsTo (nodes : Array Node) (count pos next : Nat) : Prop :=
  ∃ looks, pos + looks ≤ next ∧ ∀ left pending,
    skipOperands nodes (left + looks) (pending + count) pos = skipOperands nodes left pending next

section

variable {nodes : Array Node} {pos middle next : Nat}

theorem skipsTo_refl (pos : Nat) : SkipsTo nodes 0 pos pos :=
  ⟨0, Nat.le_refl _, fun _ _ => rfl⟩

theorem SkipsTo.append {a b : Nat} (ha : SkipsTo nodes a pos middle) (hb : SkipsTo nodes b middle next) :
    SkipsTo nodes (a + b) pos next := by
  obtain ⟨looksA, hleA, hskipA⟩ := ha
  obtain ⟨looksB, hleB, hskipB⟩ := hb
  refine ⟨looksA + looksB, by omega, fun left pending => ?_⟩
  have hcount : pending + (a + b) = pending + b + a := by omega
  have hlooks : left + (looksA + looksB) = left + looksB + looksA := by omega
  rw [hcount, hlooks, hskipA, hskipB]

theorem skipsTo_head {count : Nat}
    (hstep : ∀ left pending, skipOperands nodes (left + 1) (pending + 1) pos
      = skipOperands nodes left (pending + count) (pos + 1))
    (h : SkipsTo nodes count (pos + 1) next) : SkipsTo nodes 1 pos next := by
  obtain ⟨looks, hle, hskip⟩ := h
  refine ⟨looks + 1, by omega, fun left pending => ?_⟩
  rw [← Nat.add_assoc, hstep, hskip]

theorem skipsTo_spanned {body : Array Node} (hs : body.size + 1 < UInt32.size)
    (h : Stands nodes pos (Expression.spanned body)) :
    SkipsTo nodes 1 pos (pos + (body.size + 2)) := by
  obtain ⟨hspan, -⟩ := Span.at?_of_stands pos h hs
  rw [Expression.spanned, stands_append, stands_append, stands_singleton] at h
  refine ⟨1, by omega, fun left pending => ?_⟩
  simp only [skipOperands, h.1.1, hspan, Span.stop]

end

namespace Term

variable {nodes : Array Node}

theorem skipsTo_concat (ts : List Term) (hskips : ∀ t ∈ ts, ∀ pos, Stands nodes pos t.encode.nodes →
      SkipsTo nodes 1 pos (pos + t.size)) :
    ∀ pos, Stands nodes pos (Expression.concat (encodeAll ts)) →
      SkipsTo nodes ts.length pos (pos + sizeAll ts) := by
  induction ts with
  | nil => exact fun pos _ => skipsTo_refl pos
  | cons t ts ih =>
    intro pos h
    rw [encodeAll, Expression.concat_cons, stands_append, size_encode] at h
    have ht := hskips t (by simp) pos h.1
    have hts := ih (fun u hu => hskips u (by simp [hu])) _ h.2
    rw [List.length_cons, Nat.add_comm ts.length, sizeAll, ← Nat.add_assoc]
    exact ht.append hts

/-- Where the flat form of a term that fits stands, it is skipped as one operand. -/
theorem skipsTo_of_stands (t : Term) (fits : t.Fits) :
    ∀ pos, Stands nodes pos t.encode.nodes → SkipsTo nodes 1 pos (pos + t.size) := by
  induction t using Term.induction with
  | literal | ref | arg =>
    intro pos h
    have hn := stands_singleton.1 h
    exact skipsTo_head (fun left pending => by rw [skipOperands, hn]; rfl) (skipsTo_refl _)
  | unary op t ih =>
    intro pos h
    obtain ⟨hn, ht⟩ := stands_unary.1 h
    rw [size, ← Nat.add_assoc]
    exact skipsTo_head (fun left pending => by rw [skipOperands, hn]; rfl) (ih fits _ ht)
  | binary op a b iha ihb =>
    intro pos h
    obtain ⟨hn, ha, hb⟩ := stands_binary.1 h
    rw [size, ← Nat.add_assoc, ← Nat.add_assoc]
    exact skipsTo_head (fun left pending => by rw [skipOperands, hn]; rfl)
      ((iha fits.1 _ ha).append (ihb fits.2 _ hb))
  | branch c a b ihc iha ihb =>
    intro pos h
    obtain ⟨hn, hc, hyes, hno⟩ := stands_branch.1 h
    obtain ⟨fc, fa, fb, sa, sb⟩ := fits
    have hyes := skipsTo_spanned (by rwa [size_encode]) hyes
    have hno := skipsTo_spanned (by rwa [size_encode]) hno
    rw [size_encode] at hyes hno
    have hstop : pos + (branch c a b).size = pos + 1 + c.size + (a.size + 2) + (b.size + 2) := by
      simp only [size]
      omega
    rw [hstop]
    exact skipsTo_head (fun left pending => by rw [skipOperands, hn]; rfl)
      (((ihc fc _ hc).append hyes).append hno)
  | loop kind v lower upper body ihl ihu ihb =>
    intro pos h
    obtain ⟨hn, hv, hl, hu, hb⟩ := stands_loop.1 h
    obtain ⟨fl, fu, fb, sb⟩ := fits
    have hv : SkipsTo nodes 1 (pos + 1) (pos + 2) :=
      skipsTo_head (fun left pending => by rw [skipOperands, hv]; rfl) (skipsTo_refl _)
    have hb := skipsTo_spanned (by rwa [size_encode]) hb
    rw [size_encode] at hb
    have hstop : pos + (loop kind v lower upper body).size
        = pos + 2 + lower.size + upper.size + (body.size + 2) := by
      simp only [size]
      omega
    rw [hstop]
    exact skipsTo_head (fun left pending => by rw [skipOperands, hn]; rfl)
      (((hv.append (ihl fl _ hl)).append (ihu fu _ hu)).append hb)
  | call f args ih =>
    intro pos h
    obtain ⟨hn, hargs⟩ := stands_call.1 h
    obtain ⟨fargs, hlen⟩ := fits
    rw [fitsAll_iff] at fargs
    have hall := skipsTo_concat args (fun t ht => ih t ht (fargs t ht)) _ hargs
    have hcount : (UInt32.ofNat args.length).toNat = args.length := UInt32.toNat_ofNat_of_lt hlen
    rw [size, ← Nat.add_assoc]
    exact skipsTo_head (fun left pending => by rw [skipOperands, hn]; simp only [hcount]) hall

theorem operandStop_eq {t : Term} (fits : t.Fits) {pos : Nat} (h : Stands nodes pos t.encode.nodes) :
    operandStop nodes pos = .ok (pos + t.size) := by
  obtain ⟨looks, hle, hskip⟩ := skipsTo_of_stands t fits pos h
  have hsize := add_size_le_of_stands h (by rw [size_encode]; exact t.size_pos)
  rw [size_encode] at hsize
  have hleft : nodes.size - pos = nodes.size - pos - looks + looks := by omega
  have hstop := hskip (nodes.size - pos - looks) 0
  rw [operandStop, hleft, ← Nat.zero_add 1, hstop]
  cases nodes.size - pos - looks <;> rfl

end Term

section

variable [SpecialFunctions]

/-! Differentiation -/

namespace Derivation

theorem stopsAt_descend {ctx : Derivation} {stack : List FunctionId} {target : Target}
    {nodes : Array Node} {pos : Nat} {t : Term} (counted : t.Counted)
    (h : Stands nodes pos t.encode.nodes) (depth : Nat) :
    Ensures (ctx.descend depth stack target nodes pos) fun r => r.2 = pos + t.size := by
  suffices hlands : Lands (ctx.descend depth stack target nodes pos) (fun _ => True) (pos + t.size) from
    hlands.stop
  cases depth with
  | zero => intro r hr; cases hr
  | succ depth =>
    -- an operator whose derivative is zero everywhere: its operands are skipped, not read
    have hskipped : Lands (do return (Folding.zero, ← orDefect (operandStop nodes pos)))
        (fun _ => True) (pos + t.size) :=
      (ensures_orDefect fun stop hstop => Term.operandStop_of_stands counted h hstop).bind
        fun _ hstop => ensures_pure ⟨trivial, hstop⟩
    cases t with
    | literal | ref | arg =>
      rw [descend, descendBy, stands_singleton.1 h]
      exact lands_pure trivial _
    | unary op t =>
      obtain ⟨hn, hs⟩ := Term.stands_unary.1 h
      rw [descend, descendBy, hn]
      dsimp only
      split
      · exact ensures_throw _
      · split
        · exact hskipped
        · rw [Term.size, ← Nat.add_assoc]
          exact lands_unary (D := fun _ => True) (Term.counted_unary.1 counted) hs (ensures_any _)
            trivial fun _ _ _ _ _ => trivial
    | binary op a b =>
      obtain ⟨hn, hsa, hsb⟩ := Term.stands_binary.1 h
      obtain ⟨ca, cb⟩ := Term.counted_binary.1 counted
      rw [descend, descendBy, hn]
      dsimp only
      split
      · exact hskipped
      · rw [Term.size, ← Nat.add_assoc, ← Nat.add_assoc]
        exact lands_binary (D := fun _ => True) ca cb hsa hsb (ensures_any _) (ensures_any _)
          (fun _ => ensures_any _) (fun _ _ => ⟨trivial, trivial, trivial⟩) fun _ _ _ _ _ _ => trivial
    | branch c a b =>
      obtain ⟨hn, hsc, hsa, hsb⟩ := Term.stands_branch.1 h
      have hstop : pos + (Term.branch c a b).size
          = pos + 1 + c.size + (a.size + 2) + (b.size + 2) := by
        simp only [Term.size]
        omega
      rw [descend, descendBy, hn, hstop]
      exact lands_branch (D := fun _ => True) (Term.counted_branch.1 counted).1 hsc hsa hsb
        (ensures_any _) (ensures_any _) trivial fun _ _ _ _ _ => trivial
    | loop kind v lower upper body =>
      obtain ⟨hn, hv, hl, hu, hb⟩ := Term.stands_loop.1 h
      obtain ⟨cl, cu, -⟩ := Term.counted_loop.1 counted
      have hstop : pos + (Term.loop kind v lower upper body).size
          = pos + 2 + lower.size + upper.size + (body.size + 2) := by
        simp only [Term.size]
        omega
      rw [descend, descendBy, hn, hstop]
      exact lands_loop hv cl cu hl hu hb fun _ _ _ _ _ => ⟨ensures_any _, ensures_any _⟩
    | call f args =>
      obtain ⟨hn, hargs⟩ := Term.stands_call.1 h
      obtain ⟨cargs, hlen⟩ := Term.counted_call.1 counted
      rw [descend, descendBy, hn, Term.size, ← Nat.add_assoc]
      exact lands_call (D := fun _ => True) args hlen cargs hargs (fun _ _ _ _ => ensures_any _)
        fun _ _ _ _ _ _ => ensures_any _

end Derivation

/-! The walks together -/

/-- Where the check accepts an operand and ends, skipping ends too; what is put together again without
replacements is the nodes walked over; reading and writing find a term of these nodes and its document;
and evaluation and differentiation, if they end at all, end there. -/
theorem walks_end_where_checked {nodes : Array Node} {pos stop : Nat}
    (h : checkOperandAt nodes pos = .ok stop) :
    operandStop nodes pos = .ok stop ∧
    Expression.rebuildAt nodes Replacement.keep pos = .ok (Expression.slice nodes pos stop, stop) ∧
    (∃ t : Term, t.encode = Expression.slice nodes pos stop ∧
      Term.decodeAt nodes pos = .ok (t, stop) ∧
      ∀ env depth, Expression.documentAt env nodes pos depth = some (t.document env depth, stop)) ∧
    (∀ depth frame env w, walkAt depth nodes frame env pos = some w → w.pos = stop) ∧
    ∀ (ctx : Derivation) depth stack target d q,
      (ctx.descend depth stack target nodes pos).run = some (.ok (d, q)) → q = stop := by
  obtain ⟨t, fits, hstands, rfl⟩ := Term.exists_of_checkFrom _ pos stop h
  have hsize := add_size_le_of_stands hstands (by rw [Term.size_encode]; exact t.size_pos)
  rw [Term.size_encode] at hsize
  have hslice : Expression.slice nodes pos (pos + t.size) = t.encode := by
    rw [← Term.size_encode, Expression.slice_of_stands hstands]
  have hread : Term.decodeFrom nodes (nodes.size + 1) pos = .ok (t, pos + t.size) :=
    Term.decodeFrom_of_stands t fits _ pos (by omega) hstands
  refine ⟨Term.operandStop_eq fits hstands, ?_, ⟨t, hslice.symm, hread, ?_⟩, ?_, ?_⟩
  · rw [Expression.rebuildAt_eq, Term.decodeAt, hread, hslice, ← Term.encodeWith_keep t]
    rfl
  · exact fun env depth => Term.writes_of_decodeFrom _ hread depth
  · exact fun depth frame env w hw => ((Walk.ends_iff_of_decodeFrom hread).1 ⟨depth, hw⟩).2.1
  · exact fun ctx depth stack target d q hd =>
      Derivation.stopsAt_descend (Term.counted_of_fits t fits) hstands depth _ hd

end

open Series

def raisedSum : Array Node :=
  #[.op (.binary .add)] ++ Term.switchedSum ++ #[.const 1.0]

theorem walks_end_in_raisedSum : checkOperandAt raisedSum 1 = .ok 19 ∧
    operandStop raisedSum 1 = .ok 19 ∧
    ∀ depth frame env w, walkAt depth raisedSum frame env 1 = some w → w.pos = 19 :=
  have accepted : checkOperandAt raisedSum 1 = .ok 19 := rfl
  have ends := walks_end_where_checked accepted
  ⟨accepted, ends.1, ends.2.2.2.1⟩

end PrefixCalculus
