import PrefixCalculus.Proofs.SpanDistances
import PrefixCalculus.Proofs.TreeValue
set_option autoImplicit false

/-!
The flat format is decoded in one way only. Over the nodes of a flat form the operands that are asked
for are one less than the nodes as long as no number of arguments wraps, and fewer if one does; so a
buffer tells whether its distances and its numbers are exact, and then reading decides which term it
is. Main statement: the check accepts a buffer exactly if it is the flat form of a term, of one term
only, and reading finds that term and uses the whole buffer.
-/

namespace PrefixCalculus

/-- The number of operands that a node asks for; a span is asked for its body and its end. -/
def Node.wanted : Node → Nat
  | .literal _ | .ref _ | .arg _ | .closing _ => 0
  | .op head => head.arity
  | .call _ argc => argc.toNat
  | .opening _ => 2

def wantedAll : List Node → Nat
  | [] => 0
  | node :: nodes => node.wanted + wantedAll nodes

def wanted (nodes : Array Node) : Nat :=
  wantedAll nodes.toList

theorem wantedAll_append (a b : List Node) : wantedAll (a ++ b) = wantedAll a + wantedAll b := by
  induction a with
  | nil => simp [wantedAll]
  | cons node a ih => rw [List.cons_append, wantedAll, ih, wantedAll, Nat.add_assoc]

@[simp] theorem wanted_append (a b : Array Node) : wanted (a ++ b) = wanted a + wanted b := by
  rw [wanted, Array.toList_append, wantedAll_append, ← wanted, ← wanted]

@[simp] theorem wanted_singleton (node : Node) : wanted #[node] = node.wanted := rfl

@[simp] theorem wanted_spanned (body : Array Node) :
    wanted (Expression.spanned body) = 2 + wanted body := by
  simp only [Expression.spanned, wanted_append, wanted_singleton, Node.wanted, Nat.add_zero]

namespace Term

theorem wanted_concat (ts : List Term) (h : ∀ t ∈ ts, wanted t.encode.nodes + 1 ≤ t.size ∧
      (wanted t.encode.nodes + 1 = t.size ↔ t.Counted)) :
    wanted (Expression.concat (encodeAll ts)) + ts.length ≤ sizeAll ts ∧
      (wanted (Expression.concat (encodeAll ts)) + ts.length = sizeAll ts ↔
        ∀ t ∈ ts, t.Counted) := by
  induction ts with
  | nil => simp [encodeAll, sizeAll, wanted, wantedAll]
  | cons t ts ih =>
    have ht := h t (by simp)
    have hts := ih fun u hu => h u (by simp [hu])
    rw [List.forall_mem_cons, ← ht.2, ← hts.2]
    simp only [encodeAll, Expression.concat_cons, wanted_append, List.length_cons, sizeAll]
    omega

/-- Every node but the first is an operand that was asked for, unless a number of arguments wraps. -/
theorem wanted_encode (t : Term) : wanted t.encode.nodes + 1 ≤ t.size ∧
    (wanted t.encode.nodes + 1 = t.size ↔ t.Counted) := by
  induction t using Term.induction with
  | literal | ref | arg =>
    simp [encode, Expression.literal, Expression.var, Expression.arg, Expression.leaf, Node.wanted, size,
      Counted, calls]
  | unary op t ih =>
    rw [counted_unary, ← ih.2]
    simp only [nodes_unary, wanted_append, wanted_singleton, Node.wanted, Operator.arity, size]
    omega
  | binary op a b iha ihb =>
    rw [counted_binary, ← iha.2, ← ihb.2]
    simp only [nodes_binary, wanted_append, wanted_singleton, Node.wanted, Operator.arity, size]
    omega
  | branch c a b ihc iha ihb =>
    rw [counted_branch, ← ihc.2, ← iha.2, ← ihb.2]
    simp only [nodes_branch, wanted_append, wanted_singleton, wanted_spanned, Node.wanted,
      Operator.arity, size]
    omega
  | loop kind v lower upper body ihl ihu ihb =>
    rw [counted_loop, ← ihl.2, ← ihu.2, ← ihb.2]
    simp only [nodes_loop, wanted_append, wanted_singleton, wanted_spanned, Node.wanted,
      Operator.arity, size]
    omega
  | call f args ih =>
    have hargs := wanted_concat args ih
    rw [counted_call, ← hargs.2]
    simp only [nodes_call, wanted_append, wanted_singleton, Node.wanted, UInt32.toNat_ofNat', size,
      UInt32.size]
    omega

theorem counted_of_decodeOperands {read : Nat → Except Defect (Term × Nat)}
    (hread : ∀ {pos t stop}, read pos = .ok (t, stop) → t.Counted) :
    ∀ {count pos ts stop}, decodeOperands read count pos = .ok (ts, stop) →
      (∀ t ∈ ts, t.Counted) ∧ ts.length = count := by
  intro count
  induction count with
  | zero => intro pos ts stop h; cases h; simp
  | succ count ih =>
    intro pos ts stop h
    obtain ⟨⟨t, middle⟩, ht, h⟩ := exists_of_bind_eq_ok h
    obtain ⟨⟨rest, stop'⟩, hrest, h⟩ := exists_of_bind_eq_ok h
    cases h
    obtain ⟨hcounted, hlen⟩ := ih hrest
    exact ⟨List.forall_mem_cons.2 ⟨hread ht, hcounted⟩, by rw [List.length_cons, hlen]⟩

theorem counted_of_decodeFrom {nodes : Array Node} (depth : Nat) :
    ∀ {pos t stop}, decodeFrom nodes depth pos = .ok (t, stop) → t.Counted := by
  induction depth with
  | zero => intro pos t stop h; cases h
  | succ depth ih =>
    intro pos t stop h
    cases reads_of_decodeFrom h with
    | literal | ref | arg => simp [Counted, calls]
    | unary _ ha => exact counted_unary.2 (ih ha)
    | binary _ ha hb => exact counted_binary.2 ⟨ih ha, ih hb⟩
    | branch _ hc _ ha _ hb => exact counted_branch.2 ⟨ih hc, ih ha, ih hb⟩
    | loop _ _ hl hu _ hb => exact counted_loop.2 ⟨ih hl, ih hu, ih hb⟩
    | call _ hargs =>
      obtain ⟨hcounted, hlen⟩ := counted_of_decodeOperands ih hargs
      exact counted_call.2 ⟨hcounted, by rw [hlen]; exact UInt32.toNat_lt _⟩

theorem decode_encode_iff (t : Term) : decode t.encode = .ok t ↔ t.Fits := by
  constructor
  · intro h
    obtain ⟨⟨t', stop⟩, hread, rfl⟩ : ∃ r, decodeAt t.encode.nodes 0 = .ok r ∧ r.1 = t := by
      unfold decode at h
      cases hread : decodeAt t.encode.nodes 0 with
      | error d => rw [hread] at h; cases h
      | ok r => rw [hread] at h; exact ⟨r, rfl, Except.ok.inj h⟩
    exact (eq_of_decode (counted_of_decodeFrom _ hread) h).2
  · exact decode_encode

theorem eq_of_encode_eq {t t' : Term} (fits : t.Fits) (h : t'.encode = t.encode) : t' = t := by
  have hcounted : t'.Counted := by
    have hexact := (wanted_encode t).2.2 (counted_of_fits t fits)
    have hsize : t'.size = t.size := by rw [← size_encode, ← size_encode, h]
    rw [← (wanted_encode t').2, h, hexact, hsize]
  have hdecode := decode_encode fits
  rw [← h] at hdecode
  exact (eq_of_decode hcounted hdecode).1.symm

/-- A buffer passes the check exactly if it is the flat form of a term that fits; then it is the flat
form of that term only, and reading at its start finds the term and ends behind the last node. A term
is read back from its flat form exactly if it fits. -/
theorem checkBuffer_iff_unique_term (nodes : Array Node) :
    (checkBuffer nodes = .ok () ↔ ∃ t : Term, t.Fits ∧ t.encode.nodes = nodes) ∧
    (checkBuffer nodes = .ok () → ∃ t : Term, decodeAt nodes 0 = .ok (t, nodes.size) ∧
      ∀ t' : Term, t'.encode.nodes = nodes ↔ t' = t) ∧
    ∀ t : Term, t.encode.nodes = nodes → (decode ⟨nodes⟩ = .ok t ↔ t.Fits) := by
  have hcheck : checkBuffer nodes = .ok () ↔ ∃ t : Term, t.Fits ∧ t.encode.nodes = nodes := by
    rw [show checkBuffer nodes = Expression.check ⟨nodes⟩ from rfl, check_eq_ok_iff]
    constructor
    · rintro ⟨t, fits, h⟩
      exact ⟨t, fits, by rw [← h]⟩
    · rintro ⟨t, fits, rfl⟩
      exact ⟨t, fits, rfl⟩
  refine ⟨hcheck, fun h => ?_, ?_⟩
  · obtain ⟨t, fits, rfl⟩ := hcheck.1 h
    have hread := decodeFrom_of_stands t fits (t.size + 1) 0 (Nat.le_succ _) (stands_self _)
    refine ⟨t, by rw [decodeAt, size_encode, hread, Nat.zero_add], fun t' => ?_⟩
    constructor
    · intro h'
      exact eq_of_encode_eq fits (by rw [← Expression.mk.injEq] at h'; exact h')
    · rintro rfl
      rfl
  · rintro t rfl
    exact decode_encode_iff t

def switchedSum : Array Node :=
  #[.op (.fold .sum), .ref ⟨0⟩, .const 1.0, .const 2.0, .opening 13, .op .branch, .ref ⟨0⟩,
    .opening 4, .call ⟨0⟩ 2, .ref ⟨0⟩, .const 3.0, .closing 4,
    .opening 4, .op (.binary .max), .ref ⟨0⟩, .const 1.0, .closing 4, .closing 13]

theorem checkBuffer_switchedSum : checkBuffer switchedSum = .ok () ∧
    ∃ t : Term, decodeAt switchedSum 0 = .ok (t, switchedSum.size) ∧
      ∀ t' : Term, t'.encode.nodes = switchedSum ↔ t' = t :=
  have accepted : checkBuffer switchedSum = .ok () := rfl
  ⟨accepted, (checkBuffer_iff_unique_term switchedSum).2.1 accepted⟩

end Term

end PrefixCalculus
