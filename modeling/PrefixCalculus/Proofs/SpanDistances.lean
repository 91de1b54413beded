import PrefixCalculus.Proofs.Encoding
set_option autoImplicit false

/-!
Flat forms of terms of any size. The distance of a span wraps beyond 32 bits, and a reader then looks
for the closing node too early. But a flat form holds no closing node that looks back beyond its own
start, so a wrapped span is never taken for a shorter one. Main statements: where the flat form of a
term stands, an operand that is skipped ends behind it, and what is read there is the term, with all
its distances in range; only the numbers of arguments must not wrap.
-/

namespace PrefixCalculus

def ClosesInside (nodes : Array Node) : Prop :=
  ∀ (i : Nat) (distance : UInt32), nodes[i]? = some (.closing distance) → distance.toNat ≤ i

theorem closesInside_append {a b : Array Node} (ha : ClosesInside a) (hb : ClosesInside b) :
    ClosesInside (a ++ b) := by
  intro i distance h
  by_cases hi : i < a.size
  · rw [Array.getElem?_append_left hi] at h
    exact ha i distance h
  · rw [Array.getElem?_append_right (by omega)] at h
    have := hb _ distance h
    omega

theorem closesInside_singleton {node : Node} (h : ∀ distance, node ≠ .closing distance) :
    ClosesInside #[node] := by
  intro i distance hi
  cases i with
  | zero => exact absurd (by simpa using hi) (h distance)
  | succ i => simp at hi

theorem closesInside_spanned {body : Array Node} (h : ClosesInside body) :
    ClosesInside (Expression.spanned body) := by
  have hopened : ClosesInside (#[Node.opening (UInt32.ofNat (body.size + 1))] ++ body) :=
    closesInside_append (closesInside_singleton (by simp)) h
  intro i distance hi
  rw [Expression.spanned] at hi
  by_cases hlt : i < (#[Node.opening (UInt32.ofNat (body.size + 1))] ++ body).size
  · rw [Array.getElem?_append_left hlt] at hi
    exact hopened i distance hi
  · rw [Array.getElem?_append_right (by omega), Array.getElem?_eq_some_iff] at hi
    obtain ⟨hsize, hi⟩ := hi
    have hdistance : UInt32.ofNat (body.size + 1) = distance := by simpa using hi
    have hwrap : distance.toNat ≤ body.size + 1 := by
      rw [← hdistance, UInt32.toNat_ofNat']
      exact Nat.mod_le _ _
    simp only [Array.size_append, Array.size_singleton] at hlt
    omega

/-- Where a span stands and is read, its distance did not wrap. -/
theorem Span.eq_of_at? {nodes body : Array Node} {pos : Nat} {s : Span} (inside : ClosesInside body)
    (h : Stands nodes pos (Expression.spanned body)) (hs : Span.at? nodes pos = .ok s) :
    body.size + 1 < UInt32.size ∧ s = ⟨pos, body.size + 2⟩ := by
  have hsize : body.size + 1 < UInt32.size := by
    refine Nat.lt_of_not_ge fun hwrap => ?_
    rw [Expression.spanned, stands_append, stands_append, stands_singleton] at h
    obtain ⟨⟨hopen, hbody⟩, -⟩ := h
    simp only [Span.at?, hopen] at hs
    split at hs
    · rename_i hclose
      -- The closing node that was found stands in the body, less than its distance from the start.
      obtain ⟨hclose, hpos⟩ := Span.closes_eq_true hclose
      have hlt := (UInt32.ofNat (body.size + 1)).toNat_lt
      have hpos : 0 < (UInt32.ofNat (body.size + 1)).toNat := UInt32.lt_iff_toNat_lt.1 hpos
      generalize UInt32.ofNat (body.size + 1) = distance at *
      have hfound := hbody (distance.toNat - 1) (by simp only [UInt32.size] at hwrap; omega)
      have hat : pos + #[Node.opening distance].size + (distance.toNat - 1) = pos + distance.toNat := by
        rw [Array.size_singleton]
        omega
      rw [hat, hclose] at hfound
      have := inside _ _ hfound.symm
      omega
    · cases hs
  obtain ⟨hat, -⟩ := Span.at?_of_stands pos h hsize
  rw [hat] at hs
  exact ⟨hsize, (Except.ok.inj hs).symm⟩

theorem stands_body {nodes body : Array Node} {pos : Nat}
    (h : Stands nodes pos (Expression.spanned body)) : Stands nodes (pos + 1) body := by
  rw [Expression.spanned, stands_append, stands_append] at h
  simpa using h.1.2

theorem Expression.slice_of_stands {nodes part : Array Node} {pos : Nat}
    (h : Stands nodes pos part) : Expression.slice nodes pos (pos + part.size) = ⟨part⟩ := by
  rw [Expression.slice, Expression.mk.injEq]
  apply Array.ext_getElem?
  intro i
  by_cases hi : i < part.size
  · have hfound := h i hi
    rw [Array.getElem?_eq_getElem hi] at hfound
    have hlt := (Array.getElem?_eq_some_iff.1 hfound).1
    rw [← h i hi, Array.getElem?_extract, if_pos (by omega)]
  · rw [Array.getElem?_extract, if_neg (by omega), Array.getElem?_eq_none (by omega)]

theorem Expression.slice_body {nodes body : Array Node} {pos : Nat}
    (h : Stands nodes pos (Expression.spanned body)) :
    Expression.slice nodes (pos + 1) (pos + (body.size + 2) - 1) = ⟨body⟩ := by
  have hstop : pos + (body.size + 2) - 1 = pos + 1 + body.size := by omega
  rw [hstop, slice_of_stands (stands_body h)]

/-! Skipping -/

/-- Wherever skipping so many operands from the one position on ends, skipping none from the other
position on does. -/
def Skips (nodes : Array Node) (count pos next : Nat) : Prop :=
  ∀ left pending stop, skipOperands nodes left (pending + count) pos = .ok stop →
    ∃ left, skipOperands nodes left pending next = .ok stop

section

variable {nodes : Array Node} {pos middle next : Nat}

theorem skips_zero : Skips nodes 0 pos pos :=
  fun left _ _ h => ⟨left, h⟩

theorem Skips.append {a b : Nat} (ha : Skips nodes a pos middle) (hb : Skips nodes b middle next) :
    Skips nodes (a + b) pos next := by
  intro left pending stop h
  rw [Nat.add_comm a, ← Nat.add_assoc] at h
  obtain ⟨left, h⟩ := ha left (pending + b) stop h
  exact hb left pending stop h

theorem skips_head {count : Nat}
    (hstep : ∀ left pending, skipOperands nodes (left + 1) (pending + 1) pos
      = skipOperands nodes left (pending + count) (pos + 1))
    (h : Skips nodes count (pos + 1) next) : Skips nodes 1 pos next := by
  intro left pending stop hstop
  cases left with
  | zero => cases hstop
  | succ left =>
    rw [hstep] at hstop
    exact h left pending stop hstop

theorem skips_spanned {body : Array Node} (inside : ClosesInside body)
    (h : Stands nodes pos (Expression.spanned body)) : Skips nodes 1 pos (pos + (body.size + 2)) := by
  have hopen : nodes[pos]? = some (.opening (UInt32.ofNat (body.size + 1))) := by
    rw [Expression.spanned, stands_append, stands_append, stands_singleton] at h
    exact h.1.1
  intro left pending stop hstop
  cases left with
  | zero => cases hstop
  | succ left =>
    simp only [skipOperands, hopen] at hstop
    split at hstop
    · rename_i span hspan
      obtain ⟨-, rfl⟩ := Span.eq_of_at? inside h hspan
      exact ⟨left, hstop⟩
    · cases hstop

end

namespace Term

def Counted (t : Term) : Prop :=
  ∀ c ∈ t.calls, c.2 < UInt32.size

theorem mem_callsAll {ts : List Term} {c : FunctionId × Nat} :
    c ∈ callsAll ts ↔ ∃ t ∈ ts, c ∈ t.calls := by
  induction ts with
  | nil => simp [callsAll]
  | cons t ts ih => simp [callsAll, ih]

theorem counted_unary {op : UnaryOp} {t : Term} : (unary op t).Counted ↔ t.Counted := by
  simp [Counted, calls]

theorem counted_binary {op : BinaryOp} {a b : Term} :
    (binary op a b).Counted ↔ a.Counted ∧ b.Counted := by
  simp [Counted, calls, or_imp, forall_and]

theorem counted_branch {c a b : Term} :
    (branch c a b).Counted ↔ c.Counted ∧ a.Counted ∧ b.Counted := by
  simp [Counted, calls, or_imp, forall_and]

theorem counted_loop {kind : Fold} {v : Address} {lower upper body : Term} :
    (loop kind v lower upper body).Counted ↔ lower.Counted ∧ upper.Counted ∧ body.Counted := by
  simp [Counted, calls, or_imp, forall_and]

theorem counted_call {f : FunctionId} {args : List Term} :
    (call f args).Counted ↔ (∀ t ∈ args, t.Counted) ∧ args.length < UInt32.size := by
  simp only [Counted, calls, List.mem_append, List.mem_singleton, mem_callsAll]
  constructor
  · intro h
    exact ⟨fun t ht c hc => h c (.inl ⟨t, ht, hc⟩), h _ (.inr rfl)⟩
  · rintro ⟨hargs, hlen⟩ c (⟨t, ht, hc⟩ | rfl)
    · exact hargs t ht c hc
    · exact hlen

theorem counted_of_fits (t : Term) (fits : t.Fits) : t.Counted := by
  induction t using Term.induction with
  | literal | ref | arg => simp [Counted, calls]
  | unary op t ih => exact counted_unary.2 (ih fits)
  | binary op a b iha ihb => exact counted_binary.2 ⟨iha fits.1, ihb fits.2⟩
  | branch c a b ihc iha ihb =>
    exact counted_branch.2 ⟨ihc fits.1, iha fits.2.1, ihb fits.2.2.1⟩
  | loop kind v lower upper body ihl ihu ihb =>
    exact counted_loop.2 ⟨ihl fits.1, ihu fits.2.1, ihb fits.2.2.1⟩
  | call f args ih =>
    obtain ⟨fargs, hlen⟩ := fits
    rw [fitsAll_iff] at fargs
    exact counted_call.2 ⟨fun t ht => ih t ht (fargs t ht), hlen⟩

theorem closesInside_concat {ts : List Term} (h : ∀ t ∈ ts, ClosesInside t.encode.nodes) :
    ClosesInside (Expression.concat (encodeAll ts)) := by
  induction ts with
  | nil => intro i distance hi; simp [encodeAll] at hi
  | cons t ts ih =>
    rw [encodeAll, Expression.concat_cons]
    exact closesInside_append (h t (by simp)) (ih fun u hu => h u (by simp [hu]))

theorem closesInside_encode (t : Term) : ClosesInside t.encode.nodes := by
  induction t using Term.induction with
  | literal | ref | arg => exact closesInside_singleton (by simp)
  | unary op t ih =>
    rw [nodes_unary]
    exact closesInside_append (closesInside_singleton (by simp)) ih
  | binary op a b iha ihb =>
    rw [nodes_binary]
    exact closesInside_append (closesInside_append (closesInside_singleton (by simp)) iha) ihb
  | branch c a b ihc iha ihb =>
    rw [nodes_branch]
    exact closesInside_append (closesInside_append (closesInside_append
      (closesInside_singleton (by simp)) ihc) (closesInside_spanned iha)) (closesInside_spanned ihb)
  | loop kind v lower upper body ihl ihu ihb =>
    rw [nodes_loop]
    exact closesInside_append (closesInside_append (closesInside_append (closesInside_append
      (closesInside_singleton (by simp)) (closesInside_singleton (by simp))) ihl) ihu)
      (closesInside_spanned ihb)
  | call f args ih =>
    rw [nodes_call]
    exact closesInside_append (closesInside_singleton (by simp)) (closesInside_concat ih)

section

variable {nodes : Array Node}

theorem skips_concat (ts : List Term) (h : ∀ t ∈ ts, ∀ pos, Stands nodes pos t.encode.nodes →
      Skips nodes 1 pos (pos + t.size)) :
    ∀ pos, Stands nodes pos (Expression.concat (encodeAll ts)) →
      Skips nodes ts.length pos (pos + sizeAll ts) := by
  induction ts with
  | nil => exact fun pos _ => skips_zero
  | cons t ts ih =>
    intro pos hts
    rw [encodeAll, Expression.concat_cons, stands_append, size_encode] at hts
    have ht := h t (by simp) pos hts.1
    have hrest := ih (fun u hu => h u (by simp [hu])) _ hts.2
    rw [List.length_cons, Nat.add_comm, sizeAll, ← Nat.add_assoc]
    exact ht.append hrest

/-- A term that stands in a buffer is skipped as a whole, or not at all. -/
theorem skips_of_stands (t : Term) (counted : t.Counted) :
    ∀ pos, Stands nodes pos t.encode.nodes → Skips nodes 1 pos (pos + t.size) := by
  induction t using Term.induction with
  | literal x | ref a | arg i =>
    intro pos h
    have hn := stands_singleton.1 h
    exact skips_head (fun left pending => by rw [skipOperands, hn]; rfl) skips_zero
  | unary op t ih =>
    intro pos h
    obtain ⟨hn, ht⟩ := stands_unary.1 h
    have ht := ih (counted_unary.1 counted) _ ht
    rw [size, ← Nat.add_assoc]
    exact skips_head (fun left pending => by rw [skipOperands, hn]; rfl) ht
  | binary op a b iha ihb =>
    intro pos h
    obtain ⟨hn, ha, hb⟩ := stands_binary.1 h
    obtain ⟨ca, cb⟩ := counted_binary.1 counted
    have hab := (iha ca _ ha).append (ihb cb _ hb)
    rw [size, ← Nat.add_assoc, ← Nat.add_assoc]
    exact skips_head (fun left pending => by rw [skipOperands, hn]; rfl) hab
  | branch c a b ihc iha ihb =>
    intro pos h
    obtain ⟨hn, hc, hyes, hno⟩ := stands_branch.1 h
    have hc := ihc (counted_branch.1 counted).1 _ hc
    have hyes := skips_spanned (closesInside_encode a) hyes
    have hno := skips_spanned (closesInside_encode b) hno
    rw [size_encode] at hyes hno
    have hall := (hc.append hyes).append hno
    have hstop : pos + 1 + c.size + (a.size + 2) + (b.size + 2) = pos + (branch c a b).size := by
      simp only [size]
      omega
    rw [hstop] at hall
    exact skips_head (fun left pending => by rw [skipOperands, hn]; rfl) hall
  | loop kind v lower upper body ihl ihu ihb =>
    intro pos h
    obtain ⟨hn, hv, hl, hu, hb⟩ := stands_loop.1 h
    obtain ⟨cl, cu, -⟩ := counted_loop.1 counted
    have hv : Skips nodes 1 (pos + 1) (pos + 2) :=
      skips_head (fun left pending => by rw [skipOperands, hv]; rfl) skips_zero
    have hb := skips_spanned (closesInside_encode body) hb
    rw [size_encode] at hb
    have hall := ((hv.append (ihl cl _ hl)).append (ihu cu _ hu)).append hb
    have hstop : pos + 2 + lower.size + upper.size + (body.size + 2)
        = pos + (loop kind v lower upper body).size := by
      simp only [size]
      omega
    rw [hstop] at hall
    exact skips_head (fun left pending => by rw [skipOperands, hn]; rfl) hall
  | call f args ih =>
    intro pos h
    obtain ⟨hn, hargs⟩ := stands_call.1 h
    obtain ⟨cargs, hlen⟩ := counted_call.1 counted
    have hall := skips_concat args (fun t ht => ih t ht (cargs t ht)) _ hargs
    have hcount : (UInt32.ofNat args.length).toNat = args.length := UInt32.toNat_ofNat_of_lt hlen
    rw [size, ← Nat.add_assoc]
    exact skips_head (fun left pending => by rw [skipOperands, hn]; simp only [hcount]) hall

theorem operandStop_of_stands {t : Term} (counted : t.Counted) {pos stop : Nat}
    (h : Stands nodes pos t.encode.nodes) (hstop : operandStop nodes pos = .ok stop) :
    stop = pos + t.size := by
  obtain ⟨left, hleft⟩ := skips_of_stands t counted pos h _ 0 stop hstop
  cases left <;> exact (Except.ok.inj hleft).symm

/-! Reading -/

theorem eq_of_decodeOperands {read : Nat → Except Defect (Term × Nat)} (ts : List Term)
    (hread : ∀ t ∈ ts, ∀ {pos r}, Stands nodes pos t.encode.nodes → read pos = .ok r →
      r = (t, pos + t.size) ∧ t.Fits) :
    ∀ {pos r}, Stands nodes pos (Expression.concat (encodeAll ts)) →
      decodeOperands read ts.length pos = .ok r → r = (ts, pos + sizeAll ts) ∧ FitsAll ts := by
  induction ts with
  | nil => intro pos r _ hr; cases hr; exact ⟨rfl, trivial⟩
  | cons t ts ih =>
    intro pos r h hr
    rw [encodeAll, Expression.concat_cons, stands_append, size_encode] at h
    rw [List.length_cons, decodeOperands] at hr
    obtain ⟨first, hfirst, hr⟩ := exists_of_bind_eq_ok hr
    obtain ⟨rfl, fits⟩ := hread t (by simp) h.1 hfirst
    obtain ⟨rest, hrest, hr⟩ := exists_of_bind_eq_ok hr
    obtain ⟨rfl, fitsAll⟩ := ih (fun u hu => hread u (by simp [hu])) h.2 hrest
    cases hr
    exact ⟨by simp [sizeAll, Nat.add_assoc], fits, fitsAll⟩

theorem eq_of_decodeFrom (t : Term) (counted : t.Counted) :
    ∀ {depth pos r}, Stands nodes pos t.encode.nodes → decodeFrom nodes depth pos = .ok r →
      r = (t, pos + t.size) ∧ t.Fits := by
  -- what is read is told by the head that stands there; a span closes where its body ends
  induction t using Term.induction with
  | literal x | ref a | arg i =>
    intro depth pos r h hr
    have hn := stands_singleton.1 h
    cases depth with
    | zero => cases hr
    | succ depth =>
      rw [decodeFrom, hn] at hr
      cases hr
      exact ⟨rfl, trivial⟩
  | unary op t ih =>
    intro depth pos r h hr
    obtain ⟨hn, ht⟩ := stands_unary.1 h
    cases depth with
    | zero => cases hr
    | succ depth =>
      rw [decodeFrom, hn] at hr
      obtain ⟨operand, hoperand, hr⟩ := exists_of_bind_eq_ok hr
      obtain ⟨rfl, fits⟩ := ih (counted_unary.1 counted) ht hoperand
      cases hr
      exact ⟨by simp [size, Nat.add_assoc], fits⟩
  | binary op a b iha ihb =>
    intro depth pos r h hr
    obtain ⟨hn, ha, hb⟩ := stands_binary.1 h
    obtain ⟨ca, cb⟩ := counted_binary.1 counted
    cases depth with
    | zero => cases hr
    | succ depth =>
      rw [decodeFrom, hn] at hr
      obtain ⟨lhs, hlhs, hr⟩ := exists_of_bind_eq_ok hr
      obtain ⟨rfl, fa⟩ := iha ca ha hlhs
      obtain ⟨rhs, hrhs, hr⟩ := exists_of_bind_eq_ok hr
      obtain ⟨rfl, fb⟩ := ihb cb hb hrhs
      cases hr
      exact ⟨by simp [size, Nat.add_assoc], fa, fb⟩
  | branch c a b ihc iha ihb =>
    intro depth pos r h hr
    obtain ⟨hn, hc, hyes, hno⟩ := stands_branch.1 h
    obtain ⟨cc, ca, cb⟩ := counted_branch.1 counted
    cases depth with
    | zero => cases hr
    | succ depth =>
      rw [decodeFrom, hn] at hr
      obtain ⟨condition, hcondition, hr⟩ := exists_of_bind_eq_ok hr
      obtain ⟨rfl, fc⟩ := ihc cc hc hcondition
      obtain ⟨first, hfirst, hr⟩ := exists_of_bind_eq_ok hr
      obtain ⟨sa, rfl⟩ := Span.eq_of_at? (closesInside_encode a) hyes hfirst
      obtain ⟨yes, hyes', hr⟩ := exists_of_bind_eq_ok hr
      obtain ⟨rfl, fa⟩ := iha ca (stands_body hyes) hyes'
      obtain ⟨second, hsecond, hr⟩ := exists_of_bind_eq_ok hr
      simp only [Span.stop, size_encode] at hsecond
      obtain ⟨sb, rfl⟩ := Span.eq_of_at? (closesInside_encode b) hno hsecond
      obtain ⟨no, hno', hr⟩ := exists_of_bind_eq_ok hr
      obtain ⟨rfl, fb⟩ := ihb cb (stands_body hno) hno'
      cases hr
      rw [size_encode] at sa sb
      refine ⟨?_, fc, fa, fb, sa, sb⟩
      simp only [Span.stop, size_encode, size, Prod.mk.injEq, true_and]
      omega
  | loop kind v lower upper body ihl ihu ihb =>
    intro depth pos r h hr
    obtain ⟨hn, hv, hl, hu, hb⟩ := stands_loop.1 h
    obtain ⟨cl, cu, cb⟩ := counted_loop.1 counted
    cases depth with
    | zero => cases hr
    | succ depth =>
      simp only [decodeFrom, hn, hv] at hr
      obtain ⟨lo, hlo, hr⟩ := exists_of_bind_eq_ok hr
      obtain ⟨rfl, fl⟩ := ihl cl hl hlo
      obtain ⟨hi, hhi, hr⟩ := exists_of_bind_eq_ok hr
      obtain ⟨rfl, fu⟩ := ihu cu hu hhi
      obtain ⟨span, hspan, hr⟩ := exists_of_bind_eq_ok hr
      obtain ⟨sb, rfl⟩ := Span.eq_of_at? (closesInside_encode body) hb hspan
      obtain ⟨inner, hinner, hr⟩ := exists_of_bind_eq_ok hr
      obtain ⟨rfl, fb⟩ := ihb cb (stands_body hb) hinner
      cases hr
      rw [size_encode] at sb
      refine ⟨?_, fl, fu, fb, sb⟩
      simp only [Span.stop, size_encode, size, Prod.mk.injEq, true_and]
      omega
  | call f args ih =>
    intro depth pos r h hr
    obtain ⟨hn, hargs⟩ := stands_call.1 h
    obtain ⟨cargs, hlen⟩ := counted_call.1 counted
    have hcount : (UInt32.ofNat args.length).toNat = args.length := UInt32.toNat_ofNat_of_lt hlen
    cases depth with
    | zero => cases hr
    | succ depth =>
      simp only [decodeFrom, hn, hcount] at hr
      obtain ⟨found, hfound, hr⟩ := exists_of_bind_eq_ok hr
      obtain ⟨rfl, fargs⟩ := eq_of_decodeOperands args
        (fun t ht _ _ => ih t ht (cargs t ht)) hargs hfound
      cases hr
      exact ⟨by simp [size, Nat.add_assoc], fargs, hlen⟩

end

theorem eq_of_decode {t t' : Term} (counted : t.Counted) (h : decode t.encode = .ok t') :
    t' = t ∧ t.Fits := by
  unfold decode at h
  cases hread : decodeAt t.encode.nodes 0 with
  | error d => rw [hread] at h; cases h
  | ok r =>
    rw [hread] at h
    cases h
    obtain ⟨rfl, fits⟩ := eq_of_decodeFrom t counted (stands_self _) hread
    exact ⟨rfl, fits⟩

end Term

end PrefixCalculus
