import PrefixCalculus.Numeric.Series
import PrefixCalculus.Proofs.ClosedValue
import PrefixCalculus.Proofs.DependenceSearch
set_option autoImplicit false

/-!
Walks in two environments at once. The environments have the same functions and as many slots, and
hold the same values at some addresses; a loop that sets its variable in both makes them agree there
too. Main statement: where they agree on all variables that an expression depends on, walks over it
come to the same value or both to none, whatever its nodes are; a closed expression has one value
everywhere.
-/

namespace PrefixCalculus

namespace Environment

/-- Two environments with the functions of a third have as many slots and the same values at the
addresses. -/
structure AgreeOn (env : Environment) (p : Address → Prop) (first second : Environment) : Prop where
  functions : first.entries = env.entries
  functions' : second.entries = env.entries
  capacity : first.capacity = second.capacity
  value : ∀ a, p a → first.value a = second.value a

namespace AgreeOn

variable {env first second : Environment} {p q : Address → Prop}

theorem mono (h : AgreeOn env p first second) (hq : ∀ a, q a → p a) : AgreeOn env q first second :=
  { h with value := fun a ha => h.value a (hq a ha) }

theorem setValue (h : AgreeOn env p first second) (a : Address) (x : Float) :
    AgreeOn env (fun b => p b ∨ b = a) (first.setValue a x) (second.setValue a x) where
  functions := h.functions
  functions' := h.functions'
  capacity := by rw [capacity_setValue, capacity_setValue, h.capacity]
  value b hb := by
    by_cases hba : b = a
    · subst hba
      by_cases hlt : b.index.toNat < first.capacity
      · rw [value_setValue_self _ _ _ hlt, value_setValue_self _ _ _ (h.capacity ▸ hlt)]
      · have hnone : ∀ e : Environment, ¬b.index.toNat < e.capacity → e.value b = nan := by
          intro e he
          simp only [Environment.capacity] at he
          simp [Environment.value, he]
        rw [hnone _ (by rwa [capacity_setValue]), hnone _ (by rwa [capacity_setValue, ← h.capacity])]
    · rw [value_setValue_of_ne _ _ (Ne.symm hba), value_setValue_of_ne _ _ (Ne.symm hba)]
      exact h.value b (hb.resolve_right hba)

theorem function? (h : AgreeOn env p first second) (f : FunctionId) :
    first.function? f = env.function? f ∧ second.function? f = env.function? f := by
  simp [Environment.function?, h.functions, h.functions']

end AgreeOn

end Environment

namespace Walk

/-- In two environments that agree the step comes to nothing, or to the same value and to the same
position, one of a set, and keeps both environments. -/
def Alike (env : Environment) (p : Address → Prop) (s : Step) (pos : Nat) (S : Nat → Prop) : Prop :=
  ∀ first second, env.AgreeOn p first second →
    s first pos = none ∧ s second pos = none ∨
      ∃ v stop, S stop ∧ s first pos = some ⟨v, stop, first⟩ ∧ s second pos = some ⟨v, stop, second⟩

def OperandsAlike (env : Environment) (p : Address → Prop) (s : Step) (count pos : Nat)
    (S : Nat → Prop) : Prop :=
  ∀ first second, env.AgreeOn p first second →
    operands s count first pos = none ∧ operands s count second pos = none ∨
      ∃ vs stop, S stop ∧ vs.length = count ∧ operands s count first pos = some (vs, first, stop) ∧
        operands s count second pos = some (vs, second, stop)

section

variable {env : Environment} {p q : Address → Prop} {s : Step} {nodes : Array Node} {pos : Nat}
  {S T : Nat → Prop}

theorem Alike.mono (h : Alike env p s pos S) (hT : ∀ stop, S stop → T stop) : Alike env p s pos T :=
  fun first second agree => (h first second agree).imp_right
    fun ⟨v, stop, hS, hw⟩ => ⟨v, stop, hT stop hS, hw⟩

theorem Alike.weaken (h : Alike env p s pos S) (hq : ∀ a, p a → q a) : Alike env q s pos S :=
  fun first second agree => h first second (agree.mono hq)

theorem Alike.of_eq {s' : Step} (pos' : Nat) (h : Alike env p s' pos' S)
    (heq : ∀ e, s e pos = s' e pos') : Alike env p s pos S := by
  intro first second agree
  rw [heq first, heq second]
  exact h first second agree

theorem alike_of_const (v : Float) (stop : Nat) (h : ∀ e, s e pos = some ⟨v, stop, e⟩)
    (hS : S stop) : Alike env p s pos S :=
  fun first second _ => .inr ⟨v, stop, hS, h first, h second⟩

theorem Alike.map_value (h : Alike env p s pos S) {first second : Environment}
    (agree : env.AgreeOn p first second) : (s first pos).map value = (s second pos).map value := by
  obtain ⟨h₁, h₂⟩ | ⟨v, stop, -, h₁, h₂⟩ := h first second agree
  · rw [h₁, h₂]
  · rw [h₁, h₂]
    rfl

section

variable [SpecialFunctions]

theorem alike_ref {depth : Nat} {frame : Frame} {a : Address} (hn : nodes[pos]? = some (.ref a))
    (ha : p a) (hS : S (pos + 1)) : Alike env p (walkAt (depth + 1) nodes frame) pos S := by
  intro first second agree
  refine .inr ⟨first.value a, pos + 1, hS, by simp only [walkAt, hn], ?_⟩
  simp only [walkAt, hn, agree.value a ha]

theorem unary_alike (op : UnaryOp) (h : Alike env p s pos S) : Alike env p (unary s op) pos S := by
  intro first second agree
  obtain ⟨h₁, h₂⟩ | ⟨v, stop, hS, h₁, h₂⟩ := h first second agree
  · exact .inl ⟨by simp [unary, h₁], by simp [unary, h₂]⟩
  · exact .inr ⟨op.apply v, stop, hS, by simp [unary, h₁], by simp [unary, h₂]⟩

theorem binary_alike (op : BinaryOp) (h : Alike env p s pos S)
    (h' : ∀ middle, S middle → Alike env p s middle T) : Alike env p (binary s op) pos T := by
  intro first second agree
  obtain ⟨h₁, h₂⟩ | ⟨a, middle, hS, h₁, h₂⟩ := h first second agree
  · exact .inl ⟨by simp [binary, h₁], by simp [binary, h₂]⟩
  · obtain ⟨h₃, h₄⟩ | ⟨b, stop, hT, h₃, h₄⟩ := h' middle hS first second agree
    · exact .inl ⟨by simp [binary, h₁, h₃], by simp [binary, h₂, h₄]⟩
    · exact .inr ⟨op.apply a b, stop, hT, by simp [binary, h₁, h₃], by simp [binary, h₂, h₄]⟩

end

theorem branch_alike (nodes : Array Node) (h : Alike env p s pos S)
    (hyes : ∀ middle, S middle → ∀ d, Span.at? nodes middle = .error d → T middle)
    (hno : ∀ middle, S middle → ∀ yes, Span.at? nodes middle = .ok yes →
      ∀ d, Span.at? nodes yes.stop = .error d → T middle)
    (hside : ∀ middle, S middle → ∀ yes, Span.at? nodes middle = .ok yes →
      ∀ no, Span.at? nodes yes.stop = .ok no → T no.stop ∧
        ∀ start, start = yes.bodyStart ∨ start = no.bodyStart → Alike env p s start fun _ => True) :
    Alike env p (branch nodes s) pos T := by
  intro first second agree
  obtain ⟨h₁, h₂⟩ | ⟨c, middle, hS, h₁, h₂⟩ := h first second agree
  · exact .inl ⟨by simp [branch, h₁], by simp [branch, h₂]⟩
  cases hy : Span.at? nodes middle with
  | error d =>
    exact .inr ⟨nan, middle, hyes middle hS d hy, by simp [branch, h₁, hy], by simp [branch, h₂, hy]⟩
  | ok yes =>
    cases hn : Span.at? nodes yes.stop with
    | error d =>
      exact .inr ⟨nan, middle, hno middle hS yes hy d hn, by simp [branch, h₁, hy, hn],
        by simp [branch, h₂, hy, hn]⟩
    | ok no =>
      obtain ⟨hT, hside⟩ := hside middle hS yes hy no hn
      have hrun : ∀ e, s e pos = some ⟨c, middle, e⟩ → branch nodes s e pos =
          if c.isNaN then some ⟨nan, no.stop, e⟩ else
            (s e (if c != 0.0 then yes.bodyStart else no.bodyStart)).bind fun w =>
              some { w with pos := no.stop } := by
        intro e he
        simp only [branch, he, hy, hn, Option.bind_eq_bind, Option.bind_some]
        rfl
      rw [hrun _ h₁, hrun _ h₂]
      split
      · exact .inr ⟨nan, no.stop, hT, rfl, rfl⟩
      · have hstart : ∃ start, start = (if c != 0.0 then yes.bodyStart else no.bodyStart) ∧
            Alike env p s start fun _ => True := by
          refine ⟨_, rfl, hside _ ?_⟩
          split
          · exact .inl rfl
          · exact .inr rfl
        obtain ⟨start, hstart, hbody⟩ := hstart
        obtain ⟨h₃, h₄⟩ | ⟨v, stop, -, h₃, h₄⟩ := hbody first second agree
        · exact .inl ⟨by rw [← hstart, h₃]; rfl, by rw [← hstart, h₄]; rfl⟩
        · exact .inr ⟨v, no.stop, hT, by rw [← hstart, h₃]; rfl, by rw [← hstart, h₄]; rfl⟩

theorem iterate_alike (kind : Fold) {start : Nat} {address : Address} {first second : Environment}
    (agree : env.AgreeOn p first second)
    (hbody : Alike env (fun b => p b ∨ b = address) s start fun _ => True) (count : Nat) :
    ∀ (range : LoopRange) (acc : Float) {at₁ at₂ : Environment},
      (∀ x, at₁.setValue address x = first.setValue address x) →
      (∀ x, at₂.setValue address x = second.setValue address x) →
      iterate (fun e => s e start) kind address count range acc at₁ = none ∧
          iterate (fun e => s e start) kind address count range acc at₂ = none ∨
        ∃ v after₁ after₂,
          iterate (fun e => s e start) kind address count range acc at₁ = some (v, after₁) ∧
          iterate (fun e => s e start) kind address count range acc at₂ = some (v, after₂) ∧
          (∀ x, after₁.setValue address x = first.setValue address x) ∧
          ∀ x, after₂.setValue address x = second.setValue address x := by
  induction count with
  | zero => exact fun _ acc at₁ at₂ hat₁ hat₂ => .inr ⟨acc, at₁, at₂, rfl, rfl, hat₁, hat₂⟩
  | succ count ih =>
    intro range acc at₁ at₂ hat₁ hat₂
    cases hnext : range.next? with
    | none =>
      exact .inr ⟨acc, at₁, at₂, by simp [iterate, hnext], by simp [iterate, hnext], hat₁, hat₂⟩
    | some r =>
      obtain ⟨i, range⟩ := r
      have hset := agree.setValue address (ofPosition i)
      obtain ⟨h₁, h₂⟩ | ⟨v, stop, -, h₁, h₂⟩ := hbody _ _ hset
      · exact .inl ⟨by simp [iterate, hnext, hat₁, h₁], by simp [iterate, hnext, hat₂, h₂]⟩
      · simp only [iterate, hnext, hat₁, hat₂, h₁, h₂, Option.bind_eq_bind, Option.bind_some]
        exact ih range _ (fun _ => Environment.setValue_setValue ..)
          fun _ => Environment.setValue_setValue ..

theorem loop_alike (kind : Fold) {address : Address} {U : Nat → Prop}
    (hvar : nodes[pos]? = some (.ref address)) (hlower : Alike env p s (pos + 1) S)
    (hupper : ∀ middle, S middle → Alike env p s middle T)
    (hnone : ∀ stop, T stop → ∀ d, Span.at? nodes stop = .error d → U stop)
    (hbody : ∀ stop, T stop → ∀ body, Span.at? nodes stop = .ok body → U body.stop ∧
      Alike env (fun b => p b ∨ b = address) s body.bodyStart fun _ => True) :
    Alike env p (loop nodes s kind) pos U := by
  intro first second agree
  obtain ⟨h₁, h₂⟩ | ⟨lo, middle, hS, h₁, h₂⟩ := hlower first second agree
  · exact .inl ⟨by simp [loop, hvar, h₁], by simp [loop, hvar, h₂]⟩
  obtain ⟨h₃, h₄⟩ | ⟨hi, stop, hT, h₃, h₄⟩ := hupper middle hS first second agree
  · exact .inl ⟨by simp [loop, hvar, h₁, h₃], by simp [loop, hvar, h₂, h₄]⟩
  cases hspan : Span.at? nodes stop with
  | error d =>
    exact .inr ⟨nan, stop, hnone stop hT d hspan, by simp [loop, hvar, h₁, h₃, hspan],
      by simp [loop, hvar, h₂, h₄, hspan]⟩
  | ok body =>
    obtain ⟨hU, hbody⟩ := hbody stop hT body hspan
    cases hrange : LoopRange.ofBounds? lo hi with
    | none =>
      exact .inr ⟨nan, body.stop, hU, by simp [loop, hvar, h₁, h₃, hspan, hrange],
        by simp [loop, hvar, h₂, h₄, hspan, hrange]⟩
    | some range =>
      obtain ⟨h₅, h₆⟩ | ⟨v, after₁, after₂, h₅, h₆, hafter₁, hafter₂⟩ :=
        iterate_alike kind agree hbody range.remaining.toNat range kind.identity
          (fun _ => rfl) fun _ => rfl
      · exact .inl ⟨by simp [loop, hvar, h₁, h₃, hspan, hrange, Environment.binding, h₅],
          by simp [loop, hvar, h₂, h₄, hspan, hrange, Environment.binding, h₆]⟩
      · exact .inr ⟨v, body.stop, hU,
          by simp [loop, hvar, h₁, h₃, hspan, hrange, Environment.binding, h₅, hafter₁],
          by simp [loop, hvar, h₂, h₄, hspan, hrange, Environment.binding, h₆, hafter₂]⟩

theorem operands_alike_zero (hS : S pos) : OperandsAlike env p s 0 pos S :=
  fun _ _ _ => .inr ⟨[], pos, hS, rfl, rfl, rfl⟩

theorem operands_alike_succ {count : Nat} (h : Alike env p s pos S)
    (h' : ∀ middle, S middle → OperandsAlike env p s count middle T) :
    OperandsAlike env p s (count + 1) pos T := by
  intro first second agree
  obtain ⟨h₁, h₂⟩ | ⟨v, middle, hS, h₁, h₂⟩ := h first second agree
  · exact .inl ⟨by simp [operands, h₁], by simp [operands, h₂]⟩
  · obtain ⟨h₃, h₄⟩ | ⟨vs, stop, hT, hlen, h₃, h₄⟩ := h' middle hS first second agree
    · exact .inl ⟨by simp [operands, h₁, h₃], by simp [operands, h₂, h₄]⟩
    · exact .inr ⟨v :: vs, stop, hT, by rw [List.length_cons, hlen], by simp [operands, h₁, h₃],
        by simp [operands, h₂, h₄]⟩

theorem operands_alike (h : ∀ pos, S pos → Alike env p s pos S) (count : Nat) :
    ∀ pos, S pos → OperandsAlike env p s count pos S := by
  induction count with
  | zero => exact fun pos hS => operands_alike_zero hS
  | succ count ih => exact fun pos hS => operands_alike_succ (h pos hS) ih

theorem call_alike (enter : Array Node → Frame → Environment → Option Walk) (f : FunctionId)
    {argc : UInt32} (h : OperandsAlike env p s argc.toNat pos S)
    (henter : ∀ function, env.function? f = some function → function.argc = argc → ∀ values,
      Alike env p (fun e _ => enter function.body.nodes values e) 0 fun _ => True) :
    Alike env p (call s enter f argc) pos S := by
  intro first second agree
  obtain ⟨hf₁, hf₂⟩ := agree.function? f
  obtain ⟨h₁, h₂⟩ | ⟨values, stop, hS, -, h₁, h₂⟩ := h first second agree
  · exact .inl ⟨by simp [call, h₁], by simp [call, h₂]⟩
  have hcall : ∀ e : Environment, operands s argc.toNat e pos = some (values, e, stop) →
      ∀ function, e.function? f = some function → call s enter f argc e pos =
        if function.argc != argc || function.body.isNull then some ⟨nan, stop, e⟩
        else (enter function.body.nodes values e).map fun w => { w with pos := stop } := by
    intro e he function hf
    simp only [call, he, hf, Option.bind_eq_bind, Option.bind_some]
    split <;> cases enter function.body.nodes values e <;> rfl
  cases hf : env.function? f with
  | none =>
    exact .inr ⟨nan, stop, hS, by simp [call, h₁, hf₁, hf], by simp [call, h₂, hf₂, hf]⟩
  | some function =>
    rw [hcall first h₁ function (hf₁.trans hf), hcall second h₂ function (hf₂.trans hf)]
    split
    · exact .inr ⟨nan, stop, hS, rfl, rfl⟩
    · rename_i hgood
      have hargc : function.argc = argc := by
        simp only [Bool.or_eq_true, bne_iff_ne, ne_eq, not_or, Decidable.not_not] at hgood
        exact hgood.1
      obtain ⟨h₃, h₄⟩ | ⟨v, bodyStop, -, h₃, h₄⟩ := henter function hf hargc values first second agree
      · exact .inl ⟨by simp [h₃], by simp [h₄]⟩
      · exact .inr ⟨v, stop, hS, by simp [h₃], by simp [h₄]⟩

end

end Walk

/-- Walks are alike where the environments agree on all variables that the nodes read. A loop makes
them agree on its variable as well, and a callee reads nothing that its caller does not. -/
theorem walkAt_alike [SpecialFunctions] {env : Environment} (depth : Nat) :
    ∀ {p : Address → Prop} {nodes : Array Node}, (∀ a, Reads env nodes a → p a) →
      ∀ frame pos, Walk.Alike env p (walkAt depth nodes frame) pos fun _ => True := by
  induction depth with
  | zero => exact fun _ _ _ _ _ _ => .inl ⟨rfl, rfl⟩
  | succ depth ih =>
    intro p nodes reads frame pos
    have hlater : ∀ pos, Walk.Alike env p (walkAt depth nodes frame) pos fun _ => True :=
      ih reads frame
    cases hn : nodes[pos]? with
    | none => exact Walk.alike_of_const nan pos (fun e => by simp only [walkAt, hn]) trivial
    | some node =>
      cases node with
      | literal x => exact Walk.alike_of_const x.value (pos + 1) (fun e => by simp only [walkAt, hn]) trivial
      | arg i =>
        exact Walk.alike_of_const ((frame[i.toNat]?).getD nan) (pos + 1)
          (fun e => by simp only [walkAt, hn]) trivial
      | opening | closing =>
        exact Walk.alike_of_const nan (pos + 1) (fun e => by simp only [walkAt, hn]) trivial
      | ref a => exact Walk.alike_ref hn (reads a (.inl (Array.mem_of_getElem? hn))) trivial
      | op op =>
        cases op with
        | unary op =>
          exact .of_eq (pos + 1) (Walk.unary_alike op (hlater _)) fun e => by simp only [walkAt, hn]
        | binary op =>
          exact .of_eq (pos + 1) (Walk.binary_alike op (hlater _) fun _ _ => hlater _)
            fun e => by simp only [walkAt, hn]
        | branch =>
          refine .of_eq (pos + 1) (Walk.branch_alike nodes (hlater _) ?_ ?_ ?_)
            fun e => by simp only [walkAt, hn]
          · exact fun _ _ _ _ => trivial
          · exact fun _ _ _ _ _ _ => trivial
          · exact fun _ _ _ _ _ _ => ⟨trivial, fun _ _ => hlater _⟩
        | fold kind =>
          cases hvar : nodes[pos + 1]? with
          | none =>
            exact Walk.alike_of_const nan (pos + 1)
              (fun e => by simp only [walkAt, hn, Walk.loop, hvar]) trivial
          | some node =>
            cases node with
            | ref a =>
              have hbound : ∀ start, Walk.Alike env (fun b => p b ∨ b = a)
                  (walkAt depth nodes frame) start fun _ => True :=
                ih (fun b hb => .inl (reads b hb)) frame
              refine .of_eq (pos + 1)
                (Walk.loop_alike kind hvar (hlater _) (fun _ _ => hlater _) ?_ ?_)
                fun e => by simp only [walkAt, hn]
              · exact fun _ _ _ _ => trivial
              · exact fun _ _ body _ => ⟨trivial, hbound body.bodyStart⟩
            | _ =>
              exact Walk.alike_of_const nan (pos + 2)
                (fun e => by simp only [walkAt, hn, Walk.loop, hvar]) trivial
      | call f argc =>
        have hoperands := Walk.operands_alike (fun pos _ => hlater pos) argc.toNat (pos + 1) trivial
        refine .of_eq (pos + 1)
          (Walk.call_alike (fun body frame env => walkAt depth body frame env 0) f hoperands ?_)
          fun e => by simp only [walkAt, hn]
        intro function found _ values
        have hcalled : Reaches env nodes f := .direct ⟨argc, Array.mem_of_getElem? hn⟩
        exact ih (fun a ha => reads a (.of_reaches hcalled found ha)) values 0

namespace Expression

variable {e : Expression} {frame : Frame} {env : Environment} {v : Float}

section

variable [SpecialFunctions]

theorem gives_congr {first second : Environment}
    (h : ∀ depth, (walkAt depth e.nodes frame first 0).map Walk.value =
      (walkAt depth e.nodes frame second 0).map Walk.value) (v : Float) :
    e.Gives frame first v ↔ e.Gives frame second v := by
  have hgives : ∀ env, e.Gives frame env v ↔
      ∃ depth, (walkAt depth e.nodes frame env 0).map Walk.value = some v := by
    intro env
    simp only [Gives, Walk.Ends, Option.map_eq_some_iff]
    exact ⟨fun ⟨w, ⟨depth, hw⟩, hv⟩ => ⟨depth, w, hw, hv⟩,
      fun ⟨depth, w, hw, hv⟩ => ⟨w, ⟨depth, hw⟩, hv⟩⟩
  simp only [hgives, h]

theorem gives_iff_of_closed (closed : e.isClosed = true) :
    e.Gives frame env v ↔ v = e.closedValue := by
  constructor
  · rintro ⟨w, ⟨depth, hw⟩, rfl⟩
    exact value_of_walk_closed closed hw
  · rintro rfl
    obtain ⟨-, value, stop, -, hwalk⟩ := fixed_of_isClosed closed
    exact ⟨_, ⟨_, hwalk frame env⟩, value_of_walk_closed closed (hwalk frame env)⟩

/-- **An expression has one value wherever the variables that it depends on have theirs.** In two
environments with the same functions and as many slots that agree on these variables, walks of any
depth over it come to the same value or both to none, in every frame, well-formed or not. A closed
expression has one value in every environment and frame. -/
theorem value_determined_by_dependence (e : Expression) :
    (∀ first second : Environment, first.entries = second.entries →
      first.capacity = second.capacity →
      (∀ a, e.dependsOn (.var a) first = true → first.value a = second.value a) → ∀ frame : Frame,
        (∀ depth, (walkAt depth e.nodes frame first 0).map Walk.value =
          (walkAt depth e.nodes frame second 0).map Walk.value) ∧
        (∀ v, e.Gives frame first v ↔ e.Gives frame second v) ∧
        ∀ depth, (e.evalWithin depth first).map Prod.fst = (e.evalWithin depth second).map Prod.fst) ∧
    (e.isClosed = true → ∀ frame env v, e.Gives frame env v ↔ v = e.closedValue) := by
  refine ⟨?_, fun closed frame env v => gives_iff_of_closed closed⟩
  intro first second hentries hcapacity hvalue frame
  have agree : first.AgreeOn (Reads first e.nodes) first second :=
    ⟨rfl, hentries.symm, hcapacity, fun a ha => hvalue a ((e.dependsOnVar_iff a first).2 ha)⟩
  have hwalk : ∀ frame depth, (walkAt depth e.nodes frame first 0).map Walk.value =
      (walkAt depth e.nodes frame second 0).map Walk.value :=
    fun frame depth => (walkAt_alike depth (fun a ha => ha) frame 0).map_value agree
  refine ⟨hwalk frame, gives_congr (hwalk frame), fun depth => ?_⟩
  unfold evalWithin
  split
  · rfl
  · simpa only [Option.map_map, Function.comp_def] using hwalk [] depth

end

open Series

/-- Variables `i`, `y` and `z`, and the function `f(x) = x * y`. -/
def scalingStore : Environment where
  slots := #[⟨some "i", nan⟩, ⟨some "y", 3.0⟩, ⟨some "z", 1.0⟩]
  entries := #[⟨⟨"f", 1, (Term.binary .mul (.arg 0) (.ref ⟨1⟩)).encode⟩, true⟩]

/-- The sum over `i` from 1 to 2 of `f(i)` does not depend on `z` and has the same value whatever it
is; the sum of two numbers has the same value in every environment. -/
theorem value_of_scaledCalls :
    (∀ z frame v,
      (Term.loop .sum ⟨0⟩ (.const 1.0) (.const 2.0) (.call ⟨0⟩ [.ref ⟨0⟩])).encode.Gives frame
        scalingStore v ↔
      (Term.loop .sum ⟨0⟩ (.const 1.0) (.const 2.0) (.call ⟨0⟩ [.ref ⟨0⟩])).encode.Gives frame
        (scalingStore.setValue ⟨2⟩ z) v) ∧
    ∀ frame env v, (Term.binary .add (.const 1.0) (.const 2.0)).encode.Gives frame env v ↔
      v = (Term.binary .add (.const 1.0) (.const 2.0)).encode.closedValue := by
  have unread : (Term.loop .sum ⟨0⟩ (.const 1.0) (.const 2.0) (.call ⟨0⟩ [.ref ⟨0⟩])).encode.dependsOn
      (.var ⟨2⟩) scalingStore = false := by decide
  have closed : (Term.binary .add (.const 1.0) (.const 2.0)).encode.isClosed = true := by
    rw [isClosed, Term.isNull_encode, Term.nodes_binary]
    simp [Term.encode, literal, leaf, Node.isOpen]
  refine ⟨fun z frame => ((value_determined_by_dependence _).1 scalingStore
    (scalingStore.setValue ⟨2⟩ z) rfl (Environment.capacity_setValue ..).symm ?_ frame).2.1,
    (value_determined_by_dependence _).2 closed⟩
  intro a ha
  refine (Environment.value_setValue_of_ne _ _ ?_).symm
  rintro rfl
  rw [unread] at ha
  cases ha

end Expression

end PrefixCalculus
