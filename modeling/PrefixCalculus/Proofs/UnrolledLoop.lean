import PrefixCalculus.Numeric.Series
import PrefixCalculus.Proofs.Agreement
import PrefixCalculus.Proofs.Shielding
set_option autoImplicit false

/-!
The value of a loop's derivative. Nothing in it reads the loop variable from outside, so walks over it
are alike in environments that differ in nothing else. A derivative of any size is considered: a span
that is too long for its distance is not read, and the walk goes on with its markers and its body; but
loops over the variable are never so long, and are read as they stand. Main statement: in environments
that differ in the variable of a loop at most, its derivative has the same values.
-/

namespace PrefixCalculus

section

variable {env : Environment} (valid : env.BodiesValid) {v : Address} {p : Term → Prop}
  {nodes : Array Node} {frame : Frame}

namespace Term

include valid in
theorem SparesVar.alike [SpecialFunctions] {c : FunctionId × Nat} {function : Function}
    (h : SparesVar env v c) (found : env.function? c.1 = some function)
    (hargc : function.argc.toNat = c.2) (depth : Nat) (frame : Frame) :
    Walk.Alike env (· ≠ v) (walkAt depth function.body.nodes frame) 0 fun _ => True := by
  refine walkAt_alike depth (fun a ha hav => ?_) frame 0
  subst hav
  exact h.not_reads valid found hargc ha

/-- Wherever the flat form of the term stands, the step reads it as it stands, alike in environments
that agree at some addresses. -/
def ReadAlike (env : Environment) (q : Address → Prop) (s : Step) (nodes : Array Node) (t : Term) :
    Prop :=
  ∀ pos, Stands nodes pos t.encode.nodes → Walk.Alike env q s pos (· = pos + t.size)

section

variable {s : Step} {q : Address → Prop} {pos : Nat}

theorem operandsAlike_of_readAlike (ts : List Term) (h : ∀ t ∈ ts, ReadAlike env q s nodes t) :
    ∀ pos, Stands nodes pos (Expression.concat (encodeAll ts)) →
      Walk.OperandsAlike env q s ts.length pos (· = pos + sizeAll ts) := by
  induction ts with
  | nil => exact fun pos _ => Walk.operands_alike_zero rfl
  | cons t ts ih =>
    intro pos hts
    obtain ⟨ht, hrest⟩ := List.forall_mem_cons.1 h
    rw [encodeAll, Expression.concat_cons, stands_append, size_encode] at hts
    refine Walk.operands_alike_succ (ht pos hts.1) ?_
    rintro _ rfl
    rw [sizeAll, ← Nat.add_assoc]
    exact ih hrest _ hts.2

theorem branchAlike_of_readAlike {c a b : Term} (fits : (branch c a b).Fits)
    (h : Stands nodes pos (branch c a b).encode.nodes) (hc : ReadAlike env q s nodes c)
    (ha : ReadAlike env q s nodes a) (hb : ReadAlike env q s nodes b) :
    Walk.Alike env q (Walk.branch nodes s) (pos + 1) (· = pos + (branch c a b).size) := by
  obtain ⟨-, hsc, hsa, hsb⟩ := stands_branch.1 h
  obtain ⟨-, -, -, sizeYes, sizeNo⟩ := fits
  rw [← size_encode] at sizeYes sizeNo
  obtain ⟨hyes, hbody⟩ := Span.at?_of_stands _ hsa sizeYes
  obtain ⟨hno, hbody'⟩ := Span.at?_of_stands _ hsb sizeNo
  rw [size_encode] at hyes hno
  have hstop : pos + 1 + c.size + (a.size + 2) + (b.size + 2) = pos + (branch c a b).size := by
    simp only [size]
    omega
  refine Walk.branch_alike nodes (hc _ hsc) ?_ ?_ ?_
  · rintro _ rfl d hd
    rw [hyes] at hd
    cases hd
  · rintro _ rfl yes hy d hd
    rw [hyes] at hy
    cases hy
    rw [Span.stop, hno] at hd
    cases hd
  · rintro _ rfl yes hy no hn
    rw [hyes] at hy
    cases hy
    rw [Span.stop, hno] at hn
    cases hn
    refine ⟨hstop, ?_⟩
    rintro start (rfl | rfl)
    · exact (ha _ hbody).mono fun _ _ => trivial
    · exact (hb _ hbody').mono fun _ _ => trivial

theorem loopAlike_of_readAlike {kind : Fold} {a : Address} {lower upper body : Term}
    (fits : (loop kind a lower upper body).Fits)
    (h : Stands nodes pos (loop kind a lower upper body).encode.nodes)
    (hl : ReadAlike env q s nodes lower) (hu : ReadAlike env q s nodes upper)
    (hb : ∀ start, Stands nodes start body.encode.nodes →
      Walk.Alike env (fun b => q b ∨ b = a) s start fun _ => True) :
    Walk.Alike env q (Walk.loop nodes s kind) (pos + 1)
      (· = pos + (loop kind a lower upper body).size) := by
  obtain ⟨-, hv, hsl, hsu, hsb⟩ := stands_loop.1 h
  obtain ⟨-, -, -, sizeBody⟩ := fits
  rw [← size_encode] at sizeBody
  obtain ⟨hspan, hstands⟩ := Span.at?_of_stands _ hsb sizeBody
  rw [size_encode] at hspan
  have hstop : pos + 2 + lower.size + upper.size + (body.size + 2)
      = pos + (loop kind a lower upper body).size := by
    simp only [size]
    omega
  have hupper : ∀ middle, middle = pos + 2 + lower.size →
      Walk.Alike env q s middle (· = pos + 2 + lower.size + upper.size) := by
    rintro _ rfl
    exact hu _ hsu
  refine Walk.loop_alike kind hv (hl _ hsl) hupper ?_ ?_
  · rintro _ rfl d hd
    rw [hspan] at hd
    cases hd
  · rintro _ rfl span hs
    rw [hspan] at hs
    cases hs
    exact ⟨hstop, hb _ hstands⟩

end

variable [SpecialFunctions]

include valid in
/-- A term that fits is read as it stands, alike in environments that differ in the variable. -/
theorem readAlike_of_fits (depth : Nat) : ∀ {t : Term}, t.Fits → Detached env v p t →
    ReadAlike env (· ≠ v) (walkAt depth nodes frame) nodes t := by
  induction depth with
  | zero => exact fun _ _ _ _ _ _ _ => .inl ⟨rfl, rfl⟩
  | succ depth ih =>
    intro t fits detached pos h
    cases t with
    | literal x =>
      have hn := stands_singleton.1 h
      exact Walk.alike_of_const x.value (pos + 1) (fun e => by simp only [walkAt, hn]) rfl
    | arg i =>
      have hn := stands_singleton.1 h
      exact Walk.alike_of_const ((frame[i.toNat]?).getD nan) (pos + 1)
        (fun e => by simp only [walkAt, hn]) rfl
    | ref a => exact Walk.alike_ref (stands_singleton.1 h) detached.shields rfl
    | unary op t =>
      obtain ⟨hn, ht⟩ := stands_unary.1 h
      have hoperand := ih (t := t) fits (buildable_detached.unary.1 detached) _ ht
      rw [size, ← Nat.add_assoc]
      exact .of_eq (pos + 1) (Walk.unary_alike op hoperand) fun e => by simp only [walkAt, hn]
    | binary op a b =>
      obtain ⟨hn, ha, hb⟩ := stands_binary.1 h
      obtain ⟨da, db⟩ := buildable_detached.binary.1 detached
      have hleft := ih fits.1 da _ ha
      have hright := ih fits.2 db _ hb
      rw [size, ← Nat.add_assoc, ← Nat.add_assoc]
      refine .of_eq (pos + 1) (Walk.binary_alike op hleft ?_) fun e => by simp only [walkAt, hn]
      rintro _ rfl
      exact hright
    | branch c a b =>
      have hn := (stands_branch.1 h).1
      obtain ⟨dc, da, db⟩ := buildable_detached.branch.1 detached
      exact .of_eq (pos + 1) (branchAlike_of_readAlike fits h (ih fits.1 dc) (ih fits.2.1 da)
        (ih fits.2.2.1 db)) fun e => by simp only [walkAt, hn]
    | loop kind a lower upper body =>
      have hn := (stands_loop.1 h).1
      obtain ⟨dl, du, db⟩ := detached.of_loop
      have hbody : ∀ start, Stands nodes start body.encode.nodes →
          Walk.Alike env (fun b => b ≠ v ∨ b = a) (walkAt depth nodes frame) start fun _ => True := by
        intro start hstart
        by_cases ha : a = v
        · subst ha
          -- The loop sets its variable, so the environments agree on every one.
          exact walkAt_alike depth (fun b _ => (em (b = a)).symm) frame _
        · exact ((ih fits.2.2.1 (db ha) _ hstart).mono fun _ _ => trivial).weaken fun _ => .inl
      exact .of_eq (pos + 1) (loopAlike_of_readAlike fits h (ih fits.1 dl) (ih fits.2.1 du) hbody)
        fun e => by simp only [walkAt, hn]
    | call f args =>
      obtain ⟨hn, hargs⟩ := stands_call.1 h
      obtain ⟨fargs, hlen⟩ := fits
      have hcount : (UInt32.ofNat args.length).toNat = args.length := UInt32.toNat_ofNat_of_lt hlen
      have hoperands : Walk.OperandsAlike env (· ≠ v) (walkAt depth nodes frame)
          (UInt32.ofNat args.length).toNat (pos + 1) (· = pos + 1 + sizeAll args) := by
        rw [hcount]
        exact operandsAlike_of_readAlike args
          (fun t ht => ih ((fitsAll_iff args).1 fargs t ht) (detached.argument t ht)) _ hargs
      rw [size, ← Nat.add_assoc]
      refine .of_eq (pos + 1)
        (Walk.call_alike (fun body frame env => walkAt depth body frame env 0) f hoperands ?_)
        fun e => by simp only [walkAt, hn]
      intro function found hargc values
      refine (detached.calls (f, args.length) (by simp [calls])).alike valid found ?_ depth values
      rw [hargc, hcount]

end Term

/-! Forms of any size -/

theorem Span.opening_of_at? {pos : Nat} {s : Span} (h : Span.at? nodes pos = .ok s) :
    ∃ distance, nodes[pos]? = some (.opening distance) := by
  unfold Span.at? at h
  split at h
  · cases h
  · rename_i distance hn
    exact ⟨distance, hn⟩
  · cases h

theorem Term.head_ne_opening {pos : Nat} {t : Term} {distance : UInt32}
    (h : Stands nodes pos t.encode.nodes) : nodes[pos]? ≠ some (.opening distance) := by
  rw [Term.head_of_stands h]
  cases t <;> simp [Term.head]

/-- A position where the flat forms of terms, or spans that they fill, stand in a row to the end of
the buffer; between them may be closing nodes. -/
inductive Rest (good : Term → Prop) (nodes : Array Node) : Nat → Prop
  | finished {pos : Nat} (h : nodes[pos]? = none) : Rest good nodes pos
  | operand {pos : Nat} {t : Term} (ht : good t) (h : Stands nodes pos t.encode.nodes)
      (next : Rest good nodes (pos + t.size)) : Rest good nodes pos
  | span {pos : Nat} {t : Term} (ht : good t)
      (h : Stands nodes pos (Expression.spanned t.encode.nodes))
      (next : Rest good nodes (pos + (t.size + 2))) : Rest good nodes pos
  | closing {pos : Nat} {distance : UInt32} (h : nodes[pos]? = some (.closing distance))
      (next : Rest good nodes (pos + 1)) : Rest good nodes pos

namespace Rest

variable {good : Term → Prop} {pos : Nat}

theorem body {t : Term} (ht : good t) (h : Stands nodes pos (Expression.spanned t.encode.nodes))
    (next : Rest good nodes (pos + (t.size + 2))) : Rest good nodes (pos + 1) := by
  have hstands := stands_body h
  rw [Expression.spanned, stands_append, stands_singleton] at h
  have hclose := h.2
  rw [Array.size_append, Array.size_singleton, Term.size_encode, ← Nat.add_assoc] at hclose
  have hstop : pos + (t.size + 2) = pos + 1 + t.size + 1 := by omega
  rw [hstop] at next
  exact .operand ht hstands (.closing hclose next)

theorem concat {ts : List Term} (hts : ∀ t ∈ ts, good t) :
    ∀ pos, Stands nodes pos (Expression.concat (Term.encodeAll ts)) →
      Rest good nodes (pos + Term.sizeAll ts) → Rest good nodes pos := by
  induction ts with
  | nil => exact fun _ _ next => next
  | cons t ts ih =>
    intro pos h next
    obtain ⟨ht, hts⟩ := List.forall_mem_cons.1 hts
    rw [Term.encodeAll, Expression.concat_cons, stands_append, Term.size_encode] at h
    rw [Term.sizeAll, ← Nat.add_assoc] at next
    exact .operand ht h.1 (ih hts _ h.2 next)

/-- A span that is read is one that stands there, so it did not wrap. -/
theorem of_span {s : Span} (h : Rest good nodes pos) (hs : Span.at? nodes pos = .ok s) :
    Rest good nodes s.stop ∧ Rest good nodes s.bodyStart := by
  cases h with
  | finished hn => simp [Span.at?, hn] at hs
  | closing hn => simp [Span.at?, hn] at hs
  | operand ht h next =>
    obtain ⟨distance, hopen⟩ := Span.opening_of_at? hs
    exact absurd hopen (Term.head_ne_opening h)
  | span ht h next =>
    obtain ⟨-, rfl⟩ := Span.eq_of_at? (Term.closesInside_encode _) h hs
    rw [Term.size_encode]
    exact ⟨next, body ht h next⟩

section

variable {s : Step} {q : Address → Prop}
  (step : ∀ pos, Rest good nodes pos → Walk.Alike env q s pos (Rest good nodes))
include step

theorem branch_alike {c a b : Term} (hc : good c) (ha : good a) (hb : good b)
    (h : Stands nodes pos (Term.branch c a b).encode.nodes)
    (next : Rest good nodes (pos + (Term.branch c a b).size)) :
    Walk.Alike env q (Walk.branch nodes s) (pos + 1) (Rest good nodes) := by
  obtain ⟨-, hsc, hsa, hsb⟩ := Term.stands_branch.1 h
  have hstop : pos + (Term.branch c a b).size
      = pos + 1 + c.size + (a.size + 2) + (b.size + 2) := by
    simp only [Term.size]
    omega
  rw [hstop] at next
  have hcondition := step _ (.operand hc hsc (.span ha hsa (.span hb hsb next)))
  refine Walk.branch_alike nodes hcondition (fun _ hm _ _ => hm) (fun _ hm _ _ _ _ => hm) ?_
  intro middle hm yes hyes no hno
  obtain ⟨hnext, hbody⟩ := hm.of_span hyes
  obtain ⟨hnext, hbody'⟩ := hnext.of_span hno
  refine ⟨hnext, ?_⟩
  rintro start (rfl | rfl)
  · exact (step _ hbody).mono fun _ _ => trivial
  · exact (step _ hbody').mono fun _ _ => trivial

theorem loop_alike {kind : Fold} {a : Address} {lower upper body : Term} (hl : good lower)
    (hu : good upper) (hb : good body)
    (h : Stands nodes pos (Term.loop kind a lower upper body).encode.nodes)
    (next : Rest good nodes (pos + (Term.loop kind a lower upper body).size)) :
    Walk.Alike env q (Walk.loop nodes s kind) (pos + 1) (Rest good nodes) := by
  obtain ⟨-, hv, hsl, hsu, hsb⟩ := Term.stands_loop.1 h
  have hstop : pos + (Term.loop kind a lower upper body).size
      = pos + 2 + lower.size + upper.size + (body.size + 2) := by
    simp only [Term.size]
    omega
  rw [hstop] at next
  have hlower := step _ (.operand hl hsl (.operand hu hsu (.span hb hsb next)))
  refine Walk.loop_alike kind hv hlower (fun middle hm => step middle hm) (fun _ hm _ _ => hm) ?_
  intro stop hm span hs
  obtain ⟨hnext, hbody⟩ := hm.of_span hs
  exact ⟨hnext, ((step _ hbody).mono fun _ _ => trivial).weaken fun _ => .inl⟩

end

end Rest

variable [SpecialFunctions]

include valid in
/-- Where detached terms stand in a row a walk ends where the rest of the row stands, alike in
environments that differ in the variable. -/
theorem walkAt_alike_of_rest (depth : Nat) : ∀ pos, Rest (Term.Detached env v Term.Fits) nodes pos →
    Walk.Alike env (· ≠ v) (walkAt depth nodes frame) pos
      (Rest (Term.Detached env v Term.Fits) nodes) := by
  induction depth with
  | zero => exact fun _ _ _ _ _ => .inl ⟨rfl, rfl⟩
  | succ depth ih =>
    intro pos hrest
    cases hrest with
    | finished hn =>
      exact Walk.alike_of_const nan pos (fun e => by simp only [walkAt, hn]) (.finished hn)
    | closing hn next =>
      exact Walk.alike_of_const nan (pos + 1) (fun e => by simp only [walkAt, hn]) next
    | span ht h next =>
      have hn : ∃ distance, nodes[pos]? = some (.opening distance) := by
        rw [Expression.spanned, stands_append, stands_append, stands_singleton] at h
        exact ⟨_, h.1.1⟩
      obtain ⟨distance, hn⟩ := hn
      exact Walk.alike_of_const nan (pos + 1) (fun e => by simp only [walkAt, hn]) (.body ht h next)
    | @operand _ t detached h next =>
      cases t with
      | literal x =>
        have hn := stands_singleton.1 h
        exact Walk.alike_of_const x.value (pos + 1) (fun e => by simp only [walkAt, hn]) next
      | arg i =>
        have hn := stands_singleton.1 h
        exact Walk.alike_of_const ((frame[i.toNat]?).getD nan) (pos + 1)
          (fun e => by simp only [walkAt, hn]) next
      | ref a => exact Walk.alike_ref (stands_singleton.1 h) detached.shields next
      | unary op t =>
        obtain ⟨hn, ht⟩ := Term.stands_unary.1 h
        rw [Term.size, ← Nat.add_assoc] at next
        have hoperand := ih _ (.operand (Term.buildable_detached.unary.1 detached) ht next)
        exact .of_eq (pos + 1) (Walk.unary_alike op hoperand) fun e => by simp only [walkAt, hn]
      | binary op a b =>
        obtain ⟨hn, ha, hb⟩ := Term.stands_binary.1 h
        obtain ⟨da, db⟩ := Term.buildable_detached.binary.1 detached
        rw [Term.size, ← Nat.add_assoc, ← Nat.add_assoc] at next
        have hleft := ih _ (.operand da ha (.operand db hb next))
        exact .of_eq (pos + 1) (Walk.binary_alike op hleft fun middle hm => ih middle hm)
          fun e => by simp only [walkAt, hn]
      | branch c a b =>
        have hn := (Term.stands_branch.1 h).1
        obtain ⟨dc, da, db⟩ := Term.buildable_detached.branch.1 detached
        exact .of_eq (pos + 1) (Rest.branch_alike ih dc da db h next)
          fun e => by simp only [walkAt, hn]
      | loop kind a lower upper body =>
        by_cases ha : a = v
        · -- A loop over the variable fits, so it is read as a whole.
          have fits : (Term.loop kind a lower upper body).Fits := by
            have hloop := detached.shields.2.2
            rwa [if_pos ha] at hloop
          refine (Term.readAlike_of_fits valid (depth + 1) fits detached pos h).mono ?_
          rintro _ rfl
          exact next
        · have hn := (Term.stands_loop.1 h).1
          obtain ⟨dl, du, db⟩ := detached.of_loop
          exact .of_eq (pos + 1) (Rest.loop_alike ih dl du (db ha) h next)
            fun e => by simp only [walkAt, hn]
      | call f args =>
        obtain ⟨hn, hargs⟩ := Term.stands_call.1 h
        obtain ⟨hlen, -⟩ := detached.calls (f, args.length) (by simp [Term.calls])
        have hcount : (UInt32.ofNat args.length).toNat = args.length :=
          UInt32.toNat_ofNat_of_lt hlen
        rw [Term.size, ← Nat.add_assoc] at next
        have hoperands := Walk.operands_alike ih (UInt32.ofNat args.length).toNat (pos + 1)
          (.concat detached.argument _ hargs next)
        refine .of_eq (pos + 1)
          (Walk.call_alike (fun body frame env => walkAt depth body frame env 0) f hoperands ?_)
          fun e => by simp only [walkAt, hn]
        intro function found hargc values
        refine (detached.calls (f, args.length) (by simp [Term.calls])).alike valid found ?_ depth
          values
        rw [hargc, hcount]

end

/-! The derivative of a loop -/

namespace Term

theorem exists_of_head_loop {kind : Fold} {v : Address} {t : Term}
    (hkind : t.encode.nodes[0]? = some (.op (.fold kind)))
    (hvar : t.encode.nodes[1]? = some (.ref v)) :
    ∃ lower upper body, t = .loop kind v lower upper body := by
  rw [head_of_stands (stands_self _)] at hkind
  cases t with
  | loop kind' a lower upper body =>
    have hread := (stands_loop.1 (stands_self (loop kind' a lower upper body).encode.nodes)).2.1
    rw [hread] at hvar
    cases hkind
    cases hvar
    exact ⟨lower, upper, body, rfl⟩
  | _ => cases hkind

end Term

namespace Derivation

section

variable [SpecialFunctions]

/-- The derivative of a loop does not read its variable from outside, unless something got lost. -/
theorem isForm_of_loop {ctx : Derivation} (valid : ctx.env.BodiesValid) {kind : Fold} {v : Address}
    {e d : Expression} (hkind : e.nodes[0]? = some (.op (.fold kind)))
    (hvar : e.nodes[1]? = some (.ref v)) {depth : Nat} {target : Target}
    (h : (ctx.differentiateWithin depth e target).run = some (.ok d)) :
    IsForm True (Term.Detached ctx.env v Term.Fits) d := by
  unfold differentiateWithin at h
  cases hcheck : e.check with
  | error defect => rw [hcheck] at h; cases h
  | ok =>
    rw [hcheck] at h
    obtain ⟨t, fits, rfl⟩ := Term.check_eq_ok_iff.1 hcheck
    obtain ⟨lower, upper, body, rfl⟩ := Term.exists_of_head_loop hkind hvar
    obtain ⟨-, hv, hl, hu, hb⟩ := Term.stands_loop.1
      (stands_self (Term.loop kind v lower upper body).encode.nodes)
    obtain ⟨cl, cu, cb⟩ := Term.counted_loop.1 (Term.counted_of_fits _ fits)
    have bodies := kept_detached (p := fun _ => False) valid v (fun _ h => h) fun _ h _ => h.elim
    have kept := kept_detached (p := Term.Fits) valid v (fun _ _ => trivial) fun _ _ fits => fits
    cases depth with
    | zero => cases h
    | succ depth =>
      have hloop : Ensures (loop .total ctx (ctx.descend depth) [] target
          (Term.loop kind v lower upper body).encode.nodes 0 kind) fun r =>
            IsForm True (Term.Detached ctx.env v Term.Fits) r.1 :=
        ensures_loop kept.toBuildable valid hv cl cu cb hl hu hb (ensures_whole_null depth [] target)
          fun t hexpands fits x =>
            have hterm := hexpands.detached valid cb fits x
            ⟨hterm, ensures_descend valid (fun _ => trivial) bodies depth kept hterm [] target _ 0
              trivial (stands_self _)⟩
      have hdescend : ctx.descend (depth + 1) [] target
          (Term.loop kind v lower upper body).encode.nodes 0 = loop .total ctx (ctx.descend depth) [] target
            (Term.loop kind v lower upper body).encode.nodes 0 kind := by rw [descend, descendBy, hkind]
      have hderives : Derives True (Term.Detached ctx.env v Term.Fits) (ctx.descend (depth + 1)) []
          target (Term.loop kind v lower upper body).encode.nodes 0 := by
        unfold Derives
        rw [hdescend]
        exact hloop
      exact ensures_whole hderives d h

/-- **A loop that is written out leaves nothing of its variable.** In environments with the functions
that the loop was differentiated with and as many slots, which differ in the value of its variable at
most, walks of any depth over the derivative come to the same value or both to none, in every frame.
-/
theorem derivative_of_loop_independent (env : Environment) (valid : env.BodiesValid) (limit : UInt64)
    (kind : Fold) (v : Address) (e : Expression) (hkind : e.nodes[0]? = some (.op (.fold kind)))
    (hvar : e.nodes[1]? = some (.ref v)) (depth : Nat) (target : Target) (d : Expression)
    (h : (differentiateWithin ⟨env, limit⟩ depth e target).run = some (.ok d))
    (first second : Environment) (functions : first.entries = env.entries)
    (functions' : second.entries = env.entries) (capacity : first.capacity = second.capacity)
    (value : ∀ a, a ≠ v → first.value a = second.value a) (frame : Frame) :
    (∀ depth, (walkAt depth d.nodes frame first 0).map Walk.value =
      (walkAt depth d.nodes frame second 0).map Walk.value) ∧
    ∀ x, d.Gives frame first x ↔ d.Gives frame second x := by
  have agree : env.AgreeOn (· ≠ v) first second := ⟨functions, functions', capacity, value⟩
  have hrest : Rest (Term.Detached env v Term.Fits) d.nodes 0 := by
    obtain ⟨-, rfl⟩ | ⟨t, detached, rfl⟩ := isForm_of_loop valid hkind hvar h
    · exact .finished rfl
    · refine .operand detached (stands_self _) (.finished ?_)
      rw [← Term.size_encode, Nat.zero_add, Array.getElem?_eq_none (Nat.le_refl _)]
  have hwalk : ∀ depth, (walkAt depth d.nodes frame first 0).map Walk.value =
      (walkAt depth d.nodes frame second 0).map Walk.value :=
    fun depth => (walkAt_alike_of_rest valid depth 0 hrest).map_value agree
  exact ⟨hwalk, Expression.gives_congr hwalk⟩

end

def growthStore : Environment where
  slots := #[⟨some "i", 1.0⟩, ⟨some "y", 0.5⟩]
  entries := #[⟨⟨"f", 1, (Term.unary .exp (.binary .mul (.arg 0) (.ref ⟨0⟩))).encode⟩, true⟩]

def growthSum : Term :=
  .loop .sum ⟨0⟩ (.const 1.0) (.const 2.0) (.binary .mul (.call ⟨0⟩ [.ref ⟨1⟩])
    (.loop .sum ⟨0⟩ (.const 1.0) (.const 2.0) (.ref ⟨0⟩)))

theorem bodiesValid_growthStore : growthStore.BodiesValid := by
  apply Environment.bodiesValid_of_entries
  simp only [growthStore, List.mem_toArray, List.forall_mem_singleton]
  exact .inr rfl

open Series

/-- The derivative by `y` still holds the inner sum over `i`, and does not depend on the value of
`i`. -/
theorem derivative_of_growthSum : ∃ d,
    (differentiateWithin ⟨growthStore, 8⟩ 8 growthSum.encode (.var ⟨1⟩)).run = some (.ok d) ∧
    d.mentions ⟨0⟩ = true ∧
    ∀ i frame x, d.Gives frame growthStore x ↔ d.Gives frame (growthStore.setValue ⟨0⟩ i) x := by
  have hd : ((differentiateWithin ⟨growthStore, 8⟩ 8 growthSum.encode (.var ⟨1⟩)).run.any
      fun r => r.toOption.any fun d => d.mentions ⟨0⟩) = true := by decide +kernel
  cases hrun : (differentiateWithin ⟨growthStore, 8⟩ 8 growthSum.encode (.var ⟨1⟩)).run with
  | none => simp [hrun] at hd
  | some outcome =>
    cases outcome with
    | error error => simp [hrun, Except.toOption] at hd
    | ok d =>
      refine ⟨d, rfl, by simpa [hrun, Except.toOption] using hd, fun i frame => ?_⟩
      exact (derivative_of_loop_independent growthStore bodiesValid_growthStore 8 .sum ⟨0⟩
        growthSum.encode rfl rfl 8 (.var ⟨1⟩) d hrun growthStore (growthStore.setValue ⟨0⟩ i) rfl rfl
        (Environment.capacity_setValue ..).symm
        (fun a ha => (Environment.value_setValue_of_ne _ _ (Ne.symm ha)).symm) frame).2

end Derivation

end PrefixCalculus
