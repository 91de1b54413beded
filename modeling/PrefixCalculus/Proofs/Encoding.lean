import PrefixCalculus.Term
set_option autoImplicit false

/-!
Terms and their flat forms determine each other as long as every distance and every number of
arguments fits 32 bits. Main statements: wherever the flat form of a term stands in a buffer, reading
there gives the term back and the position behind it; and what passes the check is a flat form.
-/

namespace PrefixCalculus

def Stands (nodes : Array Node) (pos : Nat) (part : Array Node) : Prop :=
  ∀ i, i < part.size → nodes[pos + i]? = part[i]?

theorem stands_append {nodes a b : Array Node} {pos : Nat} :
    Stands nodes pos (a ++ b) ↔ Stands nodes pos a ∧ Stands nodes (pos + a.size) b := by
  constructor
  · intro h
    constructor
    · intro i hi
      have h' := h i (by rw [Array.size_append]; omega)
      rwa [Array.getElem?_append_left hi] at h'
    · intro i hi
      have h' := h (a.size + i) (by rw [Array.size_append]; omega)
      rw [Array.getElem?_append_right (by omega)] at h'
      rw [Nat.add_assoc, h']
      congr 1
      omega
  · rintro ⟨ha, hb⟩ i hi
    rw [Array.size_append] at hi
    by_cases h : i < a.size
    · rw [Array.getElem?_append_left h, ha i h]
    · have h' := hb (i - a.size) (by omega)
      rw [Array.getElem?_append_right (by omega), ← h']
      congr 1
      omega

theorem stands_singleton {nodes : Array Node} {pos : Nat} {node : Node} :
    Stands nodes pos #[node] ↔ nodes[pos]? = some node := by
  constructor
  · intro h
    simpa using h 0 (by simp)
  · intro h i hi
    have hi : i = 0 := by simpa using hi
    subst hi
    simpa using h

theorem stands_middle (before part behind : Array Node) :
    Stands (before ++ part ++ behind) before.size part := by
  intro i hi
  rw [Array.getElem?_append_left (by rw [Array.size_append]; omega),
    Array.getElem?_append_right (by omega)]
  congr 1
  omega

theorem stands_self (nodes : Array Node) : Stands nodes 0 nodes := by
  intro i _
  rw [Nat.zero_add]

theorem eq_of_stands {nodes part : Array Node} (h : Stands nodes 0 part)
    (hs : nodes.size = part.size) : nodes = part := by
  apply Array.ext_getElem?
  intro i
  by_cases hi : i < part.size
  · simpa using h i hi
  · rw [Array.getElem?_eq_none (by omega), Array.getElem?_eq_none (by omega)]

namespace Expression

theorem foldl_append_nodes (es : List Expression) (start : Array Node) :
    es.foldl (fun acc e => acc ++ e.nodes) start = start ++ concat es := by
  unfold concat
  induction es generalizing start with
  | nil => simp
  | cons e es ih => rw [List.foldl_cons, ih, List.foldl_cons, ih (#[] ++ e.nodes)]; simp

@[simp] theorem concat_nil : concat [] = #[] := rfl

@[simp] theorem concat_cons (e : Expression) (es : List Expression) :
    concat (e :: es) = e.nodes ++ concat es := by
  rw [concat, List.foldl_cons, foldl_append_nodes]
  simp

theorem nodes_headed {head : Node} {operands : List Expression}
    (h : operands.any isNull = false) : (headed head operands).nodes = #[head] ++ concat operands := by
  simp [headed, h]

theorem nodes_delayed {e : Expression} (h : e.isNull = false) : e.delayed.nodes = spanned e.nodes := by
  simp [delayed, h]

@[simp] theorem size_spanned (body : Array Node) : (spanned body).size = body.size + 2 := by
  simp only [spanned, Array.size_append, Array.size_singleton]
  omega

end Expression

namespace Term

/-- Induction over terms; the arguments of a call come with the statement for each of them. -/
@[elab_as_elim] theorem induction {motive : Term → Prop} (literal : ∀ x, motive (literal x))
    (ref : ∀ a, motive (ref a)) (arg : ∀ i, motive (arg i))
    (unary : ∀ op t, motive t → motive (unary op t))
    (binary : ∀ op a b, motive a → motive b → motive (binary op a b))
    (branch : ∀ c a b, motive c → motive a → motive b → motive (branch c a b))
    (loop : ∀ kind v lower upper body, motive lower → motive upper → motive body →
      motive (loop kind v lower upper body))
    (call : ∀ f args, (∀ t ∈ args, motive t) → motive (call f args)) (t : Term) : motive t := by
  refine @Term.rec motive (fun ts => ∀ t ∈ ts, motive t) literal ref arg unary binary branch loop call
    (by simp) ?_ t
  intro t ts ht hts u hu
  rcases List.mem_cons.1 hu with rfl | hu
  · exact ht
  · exact hts u hu

mutual

def size : Term → Nat
  | literal _ | ref _ | arg _ => 1
  | unary _ t => 1 + t.size
  | binary _ a b => 1 + a.size + b.size
  | branch c a b => 5 + c.size + a.size + b.size
  | loop _ _ lower upper body => 4 + lower.size + upper.size + body.size
  | call _ args => 1 + sizeAll args

def sizeAll : List Term → Nat
  | [] => 0
  | t :: ts => t.size + sizeAll ts

end

mutual

/-- Every distance between markers and every number of arguments fits 32 bits. -/
def Fits : Term → Prop
  | literal _ | ref _ | arg _ => True
  | unary _ t => t.Fits
  | binary _ a b => a.Fits ∧ b.Fits
  | branch c a b =>
    c.Fits ∧ a.Fits ∧ b.Fits ∧ a.size + 1 < UInt32.size ∧ b.size + 1 < UInt32.size
  | loop _ _ lower upper body =>
    lower.Fits ∧ upper.Fits ∧ body.Fits ∧ body.size + 1 < UInt32.size
  | call _ args => FitsAll args ∧ args.length < UInt32.size

def FitsAll : List Term → Prop
  | [] => True
  | t :: ts => t.Fits ∧ FitsAll ts

end

theorem size_pos (t : Term) : 0 < t.size := by
  cases t <;> simp only [size] <;> omega

theorem length_le_sizeAll (ts : List Term) : ts.length ≤ sizeAll ts := by
  induction ts with
  | nil => simp
  | cons t ts ih =>
    have := t.size_pos
    simp only [List.length_cons, sizeAll]
    omega

theorem fitsAll_iff (ts : List Term) : FitsAll ts ↔ ∀ t ∈ ts, t.Fits := by
  induction ts with
  | nil => simp [FitsAll]
  | cons t ts ih => simp [FitsAll, ih]

/-! The flat form, head by head -/

theorem nodes_unary (op : UnaryOp) (t : Term) :
    (unary op t).encode.nodes = #[.op (.unary op)] ++ t.encode.nodes := by
  rw [encode, Expression.unary, Expression.operation, Expression.nodes_headed (by simp [isNull_encode])]
  simp

theorem nodes_binary (op : BinaryOp) (a b : Term) :
    (binary op a b).encode.nodes = #[.op (.binary op)] ++ a.encode.nodes ++ b.encode.nodes := by
  rw [encode, Expression.binary, Expression.operation,
    Expression.nodes_headed (by simp [isNull_encode])]
  simp

theorem nodes_branch (c a b : Term) :
    (branch c a b).encode.nodes = #[.op .branch] ++ c.encode.nodes
      ++ Expression.spanned a.encode.nodes ++ Expression.spanned b.encode.nodes := by
  rw [encode, Expression.branch, Expression.operation,
    Expression.nodes_headed (by simp [isNull_encode])]
  simp [Expression.nodes_delayed (isNull_encode _)]

theorem nodes_loop (kind : Fold) (v : Address) (lower upper body : Term) :
    (loop kind v lower upper body).encode.nodes = #[.op (.fold kind)] ++ #[.ref v]
      ++ lower.encode.nodes ++ upper.encode.nodes ++ Expression.spanned body.encode.nodes := by
  rw [encode, Expression.loop, Expression.operation,
    Expression.nodes_headed (by simp [isNull_encode, Expression.var])]
  simp [Expression.nodes_delayed (isNull_encode _), Expression.var, Expression.leaf]

theorem nodes_call (f : FunctionId) (args : List Term) :
    (call f args).encode.nodes
      = #[.call f (UInt32.ofNat args.length)] ++ Expression.concat (encodeAll args) := by
  rw [encode, Expression.call, Expression.nodes_headed (any_isNull_encodeAll args)]
  simp [encodeAll_eq_map]

theorem size_encode (t : Term) : t.encode.nodes.size = t.size := by
  induction t using Term.induction with
  | literal | ref | arg => rfl
  | unary op t ih => simp [nodes_unary, size, ih]
  | binary op a b iha ihb => simp [nodes_binary, size, iha, ihb, Nat.add_assoc]
  | branch c a b ihc iha ihb => simp [nodes_branch, size, ihc, iha, ihb]; omega
  | loop kind v lower upper body ihl ihu ihb => simp [nodes_loop, size, ihl, ihu, ihb]; omega
  | call f args ih =>
    have h : (Expression.concat (encodeAll args)).size = sizeAll args := by
      induction args with
      | nil => rfl
      | cons t ts ihs =>
        rw [encodeAll, Expression.concat_cons, Array.size_append, ih t (by simp), sizeAll,
          ihs fun u hu => ih u (by simp [hu])]
    simp [nodes_call, size, h]

end Term

theorem Span.at?_of_stands {nodes body : Array Node} (pos : Nat)
    (h : Stands nodes pos (Expression.spanned body)) (hs : body.size + 1 < UInt32.size) :
    Span.at? nodes pos = .ok ⟨pos, body.size + 2⟩ ∧ Stands nodes (pos + 1) body := by
  rw [Expression.spanned, stands_append, stands_append, stands_singleton, stands_singleton] at h
  obtain ⟨⟨hopen, hbody⟩, hclose⟩ := h
  have hd : (UInt32.ofNat (body.size + 1)).toNat = body.size + 1 :=
    UInt32.toNat_ofNat_of_lt hs
  have hp : (0 : UInt32) < UInt32.ofNat (body.size + 1) := by
    rw [UInt32.lt_iff_toNat_lt, hd]
    simp
  have hat : pos + (#[Node.opening (UInt32.ofNat (body.size + 1))] ++ body).size
      = pos + (body.size + 1) := by
    simp
    omega
  rw [hat] at hclose
  refine ⟨?_, by simpa using hbody⟩
  simp only [Span.at?, hopen, hd, hclose, Span.closes, hp, beq_self_eq_true, decide_true,
    Bool.and_self, if_true]

namespace Term

section

variable {nodes : Array Node} {pos : Nat}

theorem stands_unary {op : UnaryOp} {t : Term} :
    Stands nodes pos (unary op t).encode.nodes ↔
      nodes[pos]? = some (.op (.unary op)) ∧ Stands nodes (pos + 1) t.encode.nodes := by
  simp [nodes_unary, stands_append, stands_singleton]

theorem stands_binary {op : BinaryOp} {a b : Term} :
    Stands nodes pos (binary op a b).encode.nodes ↔
      nodes[pos]? = some (.op (.binary op)) ∧ Stands nodes (pos + 1) a.encode.nodes ∧
        Stands nodes (pos + 1 + a.size) b.encode.nodes := by
  simp [nodes_binary, stands_append, stands_singleton, size_encode, Nat.add_assoc]

theorem stands_branch {c a b : Term} :
    Stands nodes pos (branch c a b).encode.nodes ↔
      nodes[pos]? = some (.op .branch) ∧ Stands nodes (pos + 1) c.encode.nodes ∧
        Stands nodes (pos + 1 + c.size) (Expression.spanned a.encode.nodes) ∧
        Stands nodes (pos + 1 + c.size + (a.size + 2)) (Expression.spanned b.encode.nodes) := by
  simp [nodes_branch, stands_append, stands_singleton, size_encode, Nat.add_assoc]

theorem stands_loop {kind : Fold} {v : Address} {lower upper body : Term} :
    Stands nodes pos (loop kind v lower upper body).encode.nodes ↔
      nodes[pos]? = some (.op (.fold kind)) ∧ nodes[pos + 1]? = some (.ref v) ∧
        Stands nodes (pos + 2) lower.encode.nodes ∧
        Stands nodes (pos + 2 + lower.size) upper.encode.nodes ∧
        Stands nodes (pos + 2 + lower.size + upper.size) (Expression.spanned body.encode.nodes) := by
  rw [nodes_loop, stands_append, stands_append, stands_append, stands_append]
  simp [stands_singleton, size_encode, and_assoc, Nat.add_assoc]

theorem stands_call {f : FunctionId} {args : List Term} :
    Stands nodes pos (call f args).encode.nodes ↔
      nodes[pos]? = some (.call f (UInt32.ofNat args.length)) ∧
        Stands nodes (pos + 1) (Expression.concat (encodeAll args)) := by
  simp [nodes_call, stands_append, stands_singleton]

def head : Term → Node
  | literal x => .literal x
  | ref a => .ref a
  | arg i => .arg i
  | unary op _ => .op (.unary op)
  | binary op _ _ => .op (.binary op)
  | branch _ _ _ => .op .branch
  | loop kind _ _ _ _ => .op (.fold kind)
  | call f args => .call f (UInt32.ofNat args.length)

theorem head_of_stands {t : Term} (h : Stands nodes pos t.encode.nodes) :
    nodes[pos]? = some t.head := by
  cases t with
  | literal | ref | arg => exact stands_singleton.1 h
  | unary => exact (stands_unary.1 h).1
  | binary => exact (stands_binary.1 h).1
  | branch => exact (stands_branch.1 h).1
  | loop => exact (stands_loop.1 h).1
  | call => exact (stands_call.1 h).1

end

theorem exists_depth {t : Term} {depth : Nat} (h : t.size ≤ depth) : ∃ k, depth = k + 1 :=
  Nat.exists_eq_add_one_of_ne_zero (Nat.ne_of_gt (Nat.lt_of_lt_of_le t.size_pos h))

theorem decodeOperands_of_stands {nodes : Array Node} {read : Nat → Except Defect (Term × Nat)}
    (ts : List Term) (hread : ∀ t ∈ ts, ∀ pos, Stands nodes pos t.encode.nodes →
      read pos = .ok (t, pos + t.size)) :
    ∀ pos, Stands nodes pos (Expression.concat (encodeAll ts)) →
      decodeOperands read ts.length pos = .ok (ts, pos + sizeAll ts) := by
  induction ts with
  | nil => intro pos _; rfl
  | cons t ts ih =>
    intro pos h
    rw [encodeAll, Expression.concat_cons, stands_append, size_encode] at h
    have ht := hread t (by simp) pos h.1
    have hts := ih (fun u hu => hread u (by simp [hu])) _ h.2
    simp only [List.length_cons, decodeOperands, ht, hts, sizeAll, bind, Except.bind, pure,
      Except.pure, Nat.add_assoc]

theorem size_le_sizeAll {t : Term} {ts : List Term} (h : t ∈ ts) : t.size ≤ sizeAll ts := by
  induction ts with
  | nil => simp at h
  | cons u ts ih =>
    simp only [sizeAll]
    rcases List.mem_cons.1 h with rfl | h
    · omega
    · have := ih h
      omega

theorem fits_of_size {t : Term} (h : t.size ≤ UInt32.size) : t.Fits := by
  induction t using Term.induction with
  | literal | ref | arg => trivial
  | unary op t ih =>
    simp only [size] at h
    exact ih (by omega)
  | binary op a b iha ihb =>
    simp only [size] at h
    exact ⟨iha (by omega), ihb (by omega)⟩
  | branch c a b ihc iha ihb =>
    simp only [size] at h
    exact ⟨ihc (by omega), iha (by omega), ihb (by omega), by omega, by omega⟩
  | loop kind v lower upper body ihl ihu ihb =>
    simp only [size] at h
    exact ⟨ihl (by omega), ihu (by omega), ihb (by omega), by omega⟩
  | call f args ih =>
    simp only [size] at h
    have hlength := length_le_sizeAll args
    refine ⟨(fitsAll_iff args).2 fun t ht => ih t ht ?_, by omega⟩
    have := size_le_sizeAll ht
    omega

/-- Wherever the flat form of a term stands, the term is read. -/
theorem decodeFrom_of_stands {nodes : Array Node} (t : Term) (fits : t.Fits) :
    ∀ depth pos, t.size ≤ depth → Stands nodes pos t.encode.nodes →
      decodeFrom nodes depth pos = .ok (t, pos + t.size) := by
  induction t using Term.induction with
  | literal x | ref a | arg i =>
    intro depth pos hd h
    obtain ⟨depth, rfl⟩ := exists_depth hd
    have h := stands_singleton.1 h
    simp [decodeFrom, h, size]
  | unary op t ih =>
    intro depth pos hd h
    obtain ⟨depth, rfl⟩ := exists_depth hd
    simp only [size] at hd
    obtain ⟨hop, ht⟩ := stands_unary.1 h
    have ht := ih fits depth _ (by omega) ht
    simp only [decodeFrom, hop, ht, bind, Except.bind, pure, Except.pure, size, Nat.add_assoc]
  | binary op a b iha ihb =>
    intro depth pos hd h
    obtain ⟨depth, rfl⟩ := exists_depth hd
    simp only [size] at hd
    obtain ⟨hop, ha, hb⟩ := stands_binary.1 h
    have ha := iha fits.1 depth _ (by omega) ha
    have hb := ihb fits.2 depth _ (by omega) hb
    simp only [decodeFrom, hop, ha, hb, bind, Except.bind, pure, Except.pure, size]
    congr 2
    omega
  | branch c a b ihc iha ihb =>
    intro depth pos hd h
    obtain ⟨depth, rfl⟩ := exists_depth hd
    simp only [size] at hd
    obtain ⟨hop, hc, hyes, hno⟩ := stands_branch.1 h
    obtain ⟨fc, fa, fb, sa, sb⟩ := fits
    have hc := ihc fc depth _ (by omega) hc
    obtain ⟨hyes, ha⟩ := Span.at?_of_stands _ hyes (by rwa [size_encode])
    obtain ⟨hno, hb⟩ := Span.at?_of_stands _ hno (by rwa [size_encode])
    have ha := iha fa depth _ (by omega) ha
    have hb := ihb fb depth _ (by omega) hb
    rw [size_encode] at hyes hno
    simp only [decodeFrom, hop, hc, hyes, hno, ha, hb, Span.bodyStart, Span.stop, bind, Except.bind,
      pure, Except.pure, size]
    congr 2
    omega
  | loop kind v lower upper body ihl ihu ihb =>
    intro depth pos hd h
    obtain ⟨depth, rfl⟩ := exists_depth hd
    simp only [size] at hd
    obtain ⟨hop, hv, hl, hu, hb⟩ := stands_loop.1 h
    obtain ⟨fl, fu, fb, sb⟩ := fits
    have hl := ihl fl depth _ (by omega) hl
    have hu := ihu fu depth _ (by omega) hu
    obtain ⟨hspan, hb⟩ := Span.at?_of_stands _ hb (by rwa [size_encode])
    have hb := ihb fb depth _ (by omega) hb
    rw [size_encode] at hspan
    simp only [decodeFrom, hop, hv, hl, hu, hspan, hb, Span.bodyStart, Span.stop, bind, Except.bind,
      pure, Except.pure, size]
    congr 2
    omega
  | call f args ih =>
    intro depth pos hd h
    obtain ⟨depth, rfl⟩ := exists_depth hd
    simp only [size] at hd
    obtain ⟨hcall, hargs⟩ := stands_call.1 h
    obtain ⟨fargs, hlen⟩ := fits
    rw [fitsAll_iff] at fargs
    have hn : (UInt32.ofNat args.length).toNat = args.length := UInt32.toNat_ofNat_of_lt hlen
    have hargs := decodeOperands_of_stands args
      (fun t ht pos hst => ih t ht (fargs t ht) depth pos
        (by have := size_le_sizeAll ht; omega) hst) _ hargs
    simp only [decodeFrom, hcall, hn, hargs, bind, Except.bind, pure, Except.pure, size,
      Nat.add_assoc]

theorem decode_encode {t : Term} (fits : t.Fits) : decode t.encode = .ok t := by
  have h := decodeFrom_of_stands t fits (t.size + 1) 0 (by omega) (stands_self _)
  simp [decode, decodeAt, size_encode, h, Except.map]

/-! The check accepts flat forms -/

theorem checkOperands_of_stands {nodes : Array Node} {check : Nat → Except Defect Nat}
    (ts : List Term) (hcheck : ∀ t ∈ ts, ∀ pos, Stands nodes pos t.encode.nodes →
      check pos = .ok (pos + t.size)) :
    ∀ pos, Stands nodes pos (Expression.concat (encodeAll ts)) →
      checkOperands check ts.length pos = .ok (pos + sizeAll ts) := by
  induction ts with
  | nil => intro pos _; rfl
  | cons t ts ih =>
    intro pos h
    rw [encodeAll, Expression.concat_cons, stands_append, size_encode] at h
    have ht := hcheck t (by simp) pos h.1
    have hts := ih (fun u hu => hcheck u (by simp [hu])) _ h.2
    simp only [List.length_cons, checkOperands, ht, hts, sizeAll, bind, Except.bind, Nat.add_assoc]

theorem checkDelayed_of_stands {nodes : Array Node} {check : Nat → Except Defect Nat} {t : Term}
    (pos : Nat) (hcheck : ∀ pos, Stands nodes pos t.encode.nodes → check pos = .ok (pos + t.size))
    (h : Stands nodes pos (Expression.spanned t.encode.nodes)) (hs : t.size + 1 < UInt32.size) :
    checkDelayed nodes check pos = .ok (pos + (t.size + 2)) := by
  obtain ⟨hspan, hbody⟩ := Span.at?_of_stands pos h (by rwa [size_encode])
  have ht := hcheck (pos + 1) hbody
  rw [size_encode] at hspan
  have hstop : pos + 1 + t.size = pos + (t.size + 2) - 1 := by omega
  simp only [checkDelayed, hspan, Span.bodyStart, Span.bodyStop, Span.stop, ht, hstop, bind,
    Except.bind, if_true]

theorem checkFrom_of_stands {nodes : Array Node} (t : Term) (fits : t.Fits) :
    ∀ depth pos, t.size ≤ depth → Stands nodes pos t.encode.nodes →
      checkFrom nodes depth pos = .ok (pos + t.size) := by
  induction t using Term.induction with
  | literal x | ref a | arg i =>
    intro depth pos hd h
    obtain ⟨depth, rfl⟩ := exists_depth hd
    have h := stands_singleton.1 h
    simp [checkFrom, h, size]
  | unary op t ih =>
    intro depth pos hd h
    obtain ⟨depth, rfl⟩ := exists_depth hd
    simp only [size] at hd
    obtain ⟨hop, ht⟩ := stands_unary.1 h
    have ht := ih fits depth _ (by omega) ht
    simp only [checkFrom, hop, Operator.arity, checkOperands, ht, bind, Except.bind, size,
      Nat.add_assoc]
  | binary op a b iha ihb =>
    intro depth pos hd h
    obtain ⟨depth, rfl⟩ := exists_depth hd
    simp only [size] at hd
    obtain ⟨hop, ha, hb⟩ := stands_binary.1 h
    have ha := iha fits.1 depth _ (by omega) ha
    have hb := ihb fits.2 depth _ (by omega) hb
    simp only [checkFrom, hop, Operator.arity, checkOperands, ha, hb, bind, Except.bind, size]
    congr 1
    omega
  | branch c a b ihc iha ihb =>
    intro depth pos hd h
    obtain ⟨depth, rfl⟩ := exists_depth hd
    simp only [size] at hd
    obtain ⟨hop, hc, hyes, hno⟩ := stands_branch.1 h
    obtain ⟨fc, fa, fb, sa, sb⟩ := fits
    have hc := ihc fc depth _ (by omega) hc
    have hyes := checkDelayed_of_stands _ (fun pos => iha fa depth pos (by omega)) hyes sa
    have hno := checkDelayed_of_stands _ (fun pos => ihb fb depth pos (by omega)) hno sb
    simp only [checkFrom, hop, hc, hyes, hno, bind, Except.bind, size]
    congr 1
    omega
  | loop kind v lower upper body ihl ihu ihb =>
    intro depth pos hd h
    obtain ⟨depth, rfl⟩ := exists_depth hd
    simp only [size] at hd
    obtain ⟨hop, hv, hl, hu, hb⟩ := stands_loop.1 h
    obtain ⟨fl, fu, fb, sb⟩ := fits
    have hl := ihl fl depth _ (by omega) hl
    have hu := ihu fu depth _ (by omega) hu
    have hb := checkDelayed_of_stands _ (fun pos => ihb fb depth pos (by omega)) hb sb
    simp only [checkFrom, hop, hv, checkOperands, hl, hu, hb, bind, Except.bind, size]
    congr 1
    omega
  | call f args ih =>
    intro depth pos hd h
    obtain ⟨depth, rfl⟩ := exists_depth hd
    simp only [size] at hd
    obtain ⟨hcall, hargs⟩ := stands_call.1 h
    obtain ⟨fargs, hlen⟩ := fits
    rw [fitsAll_iff] at fargs
    have hn : (UInt32.ofNat args.length).toNat = args.length := UInt32.toNat_ofNat_of_lt hlen
    have hargs := checkOperands_of_stands args
      (fun t ht pos hst => ih t ht (fargs t ht) depth pos
        (by have := size_le_sizeAll ht; omega) hst) _ hargs
    simp only [checkFrom, hcall, hn, hargs, size, Nat.add_assoc]

theorem check_encode {t : Term} (fits : t.Fits) : t.encode.check = .ok () := by
  have h := checkFrom_of_stands t fits (t.size + 1) 0 (by omega) (stands_self _)
  simp [Expression.check, checkBuffer, checkOperandAt, h, size_encode, bind, Except.bind]

/-! What passes the check is a flat form -/

theorem exists_of_bind_eq_ok {ε α β : Type} {x : Except ε α} {f : α → Except ε β} {b : β}
    (h : (x >>= f) = .ok b) : ∃ a, x = .ok a ∧ f a = .ok b := by
  cases x with
  | error e => cases h
  | ok a => exact ⟨a, rfl, h⟩

theorem stands_spanned_of_at? {nodes body : Array Node} {pos : Nat} {s : Span}
    (h : Span.at? nodes pos = .ok s) (hb : Stands nodes s.bodyStart body)
    (hs : s.bodyStart + body.size = s.bodyStop) :
    Stands nodes pos (Expression.spanned body) ∧ s.stop = pos + (body.size + 2) ∧
      body.size + 1 < UInt32.size := by
  unfold Span.at? at h
  split at h
  · simp at h
  · rename_i distance hopen
    split at h
    · rename_i hclose
      obtain ⟨hclose, hpos⟩ := Span.closes_eq_true hclose
      have hpos : 0 < distance.toNat := UInt32.lt_iff_toNat_lt.1 hpos
      have hlt := distance.toNat_lt
      cases h
      simp only [Span.bodyStart, Span.bodyStop, Span.stop] at hb hs ⊢
      have hd : body.size + 1 = distance.toNat := by omega
      have hwrap : UInt32.ofNat (body.size + 1) = distance := by rw [hd, UInt32.ofNat_toNat]
      refine ⟨?_, by omega, by rw [hd]; exact hlt⟩
      rw [Expression.spanned, hwrap, stands_append, stands_append, stands_singleton,
        stands_singleton]
      refine ⟨⟨hopen, by simpa using hb⟩, ?_⟩
      have hat : pos + (#[Node.opening distance] ++ body).size = pos + distance.toNat := by
        rw [Array.size_append, ← hd]
        simp
        omega
      rw [hat]
      exact hclose
    · simp at h
  · simp at h

theorem exists_of_checkOperands {nodes : Array Node} {check : Nat → Except Defect Nat}
    (hcheck : ∀ pos stop, check pos = .ok stop →
      ∃ t : Term, t.Fits ∧ Stands nodes pos t.encode.nodes ∧ stop = pos + t.size) :
    ∀ count pos stop, checkOperands check count pos = .ok stop →
      ∃ ts : List Term, ts.length = count ∧ FitsAll ts ∧
        Stands nodes pos (Expression.concat (encodeAll ts)) ∧ stop = pos + sizeAll ts := by
  intro count
  induction count with
  | zero =>
    intro pos stop h
    refine ⟨[], rfl, trivial, by intro i hi; simp [encodeAll] at hi, ?_⟩
    simpa [checkOperands, sizeAll] using h.symm
  | succ count ih =>
    intro pos stop h
    rw [checkOperands] at h
    obtain ⟨next, hnext, h⟩ := exists_of_bind_eq_ok h
    obtain ⟨t, fits, ht, rfl⟩ := hcheck pos next hnext
    obtain ⟨ts, hlen, fitsAll, hts, rfl⟩ := ih _ _ h
    refine ⟨t :: ts, by simp [hlen], ⟨fits, fitsAll⟩, ?_, by simp [sizeAll, Nat.add_assoc]⟩
    rw [encodeAll, Expression.concat_cons, stands_append, size_encode]
    exact ⟨ht, hts⟩

theorem exists_of_checkDelayed {nodes : Array Node} {check : Nat → Except Defect Nat}
    (hcheck : ∀ pos stop, check pos = .ok stop →
      ∃ t : Term, t.Fits ∧ Stands nodes pos t.encode.nodes ∧ stop = pos + t.size)
    {pos stop : Nat} (h : checkDelayed nodes check pos = .ok stop) :
    ∃ t : Term, t.Fits ∧ Stands nodes pos (Expression.spanned t.encode.nodes) ∧
      stop = pos + (t.size + 2) ∧ t.size + 1 < UInt32.size := by
  unfold checkDelayed at h
  obtain ⟨span, hspan, h⟩ := exists_of_bind_eq_ok h
  obtain ⟨next, hnext, h⟩ := exists_of_bind_eq_ok h
  obtain ⟨t, fits, ht, rfl⟩ := hcheck _ _ hnext
  split at h
  · rename_i hstop
    have hs := stands_spanned_of_at? hspan ht (by rw [size_encode, hstop])
    rw [size_encode] at hs
    cases h
    exact ⟨t, fits, hs⟩
  · cases h

/-- Where the check succeeds a flat form stands. -/
theorem exists_of_checkFrom {nodes : Array Node} (depth : Nat) :
    ∀ pos stop, checkFrom nodes depth pos = .ok stop →
      ∃ t : Term, t.Fits ∧ Stands nodes pos t.encode.nodes ∧ stop = pos + t.size := by
  induction depth with
  | zero => intro pos stop h; cases h
  | succ depth ih =>
    intro pos stop h
    rw [checkFrom] at h
    split at h
    · cases h
    · rename_i x hn
      cases h
      exact ⟨literal x, trivial, stands_singleton.2 hn, rfl⟩
    · rename_i a hn
      cases h
      exact ⟨ref a, trivial, stands_singleton.2 hn, rfl⟩
    · rename_i i hn
      cases h
      exact ⟨arg i, trivial, stands_singleton.2 hn, rfl⟩
    · cases h
    · cases h
    · rename_i f argc hn
      obtain ⟨ts, hlen, fits, hts, rfl⟩ := exists_of_checkOperands ih _ _ _ h
      have hargc : UInt32.ofNat ts.length = argc := by rw [hlen, UInt32.ofNat_toNat]
      refine ⟨call f ts, ⟨fits, by rw [hlen]; exact argc.toNat_lt⟩, ?_, by simp [size, Nat.add_assoc]⟩
      exact stands_call.2 ⟨by rwa [hargc], hts⟩
    · rename_i hn
      obtain ⟨p₁, h₁, h⟩ := exists_of_bind_eq_ok h
      obtain ⟨p₂, h₂, h⟩ := exists_of_bind_eq_ok h
      obtain ⟨c, fc, hc, rfl⟩ := ih _ _ h₁
      obtain ⟨a, fa, ha, rfl, sa⟩ := exists_of_checkDelayed ih h₂
      obtain ⟨b, fb, hb, rfl, sb⟩ := exists_of_checkDelayed ih h
      refine ⟨branch c a b, ⟨fc, fa, fb, sa, sb⟩, ?_, by simp only [size]; omega⟩
      exact stands_branch.2 ⟨hn, hc, ha, hb⟩
    · rename_i kind hn
      split at h
      · rename_i v hv
        obtain ⟨p, h₁, h⟩ := exists_of_bind_eq_ok h
        rw [checkOperands] at h₁
        obtain ⟨p₁, h₁, h₂⟩ := exists_of_bind_eq_ok h₁
        rw [checkOperands] at h₂
        obtain ⟨p₂, h₂, h₃⟩ := exists_of_bind_eq_ok h₂
        cases h₃
        obtain ⟨lower, fl, hl, rfl⟩ := ih _ _ h₁
        obtain ⟨upper, fu, hu, rfl⟩ := ih _ _ h₂
        obtain ⟨body, fb, hb, rfl, sb⟩ := exists_of_checkDelayed ih h
        refine ⟨loop kind v lower upper body, ⟨fl, fu, fb, sb⟩, ?_, by simp only [size]; omega⟩
        exact stands_loop.2 ⟨hn, hv, hl, hu, hb⟩
      · cases h
    · rename_i op hbranch hfold hn
      obtain ⟨ts, hlen, fits, hts, rfl⟩ := exists_of_checkOperands ih _ _ _ h
      cases op with
      | unary op =>
        obtain ⟨t, rfl⟩ := List.length_eq_one_iff.1 hlen
        refine ⟨unary op t, fits.1, ?_, by simp [size, sizeAll, Nat.add_assoc]⟩
        exact stands_unary.2 ⟨hn, by simpa [encodeAll] using hts⟩
      | binary op =>
        obtain ⟨a, ts, rfl⟩ := List.exists_cons_of_length_eq_add_one hlen
        obtain ⟨b, rfl⟩ := List.length_eq_one_iff.1 (Nat.succ.inj hlen)
        refine ⟨binary op a b, ⟨fits.1, fits.2.1⟩, ?_, by simp [size, sizeAll]; omega⟩
        simp only [encodeAll, Expression.concat_cons, Expression.concat_nil, Array.append_empty,
          stands_append, size_encode] at hts
        exact stands_binary.2 ⟨hn, hts.1, hts.2⟩
      | branch => exact absurd rfl hbranch
      | fold kind => exact absurd rfl (hfold kind)

/-- An expression passes the check exactly if it is the flat form of a term that fits. -/
theorem check_eq_ok_iff {e : Expression} : e.check = .ok () ↔ ∃ t : Term, t.Fits ∧ e = t.encode := by
  constructor
  · intro h
    unfold Expression.check checkBuffer at h
    obtain ⟨stop, hstop, h⟩ := exists_of_bind_eq_ok h
    obtain ⟨t, fits, ht, rfl⟩ := exists_of_checkFrom _ _ _ hstop
    split at h
    · rename_i hsize
      refine ⟨t, fits, ?_⟩
      obtain ⟨nodes⟩ := e
      have := eq_of_stands ht (by rw [size_encode]; omega)
      simp only at this
      rw [this]
    · cases h
  · rintro ⟨t, fits, rfl⟩
    exact check_encode fits

end Term

end PrefixCalculus
