import Mathlib.Algebra.Order.BigOperators.Group.Finset
import PrefixCalculus.Numeric.Series
import PrefixCalculus.Proofs.DependenceSearch
import PrefixCalculus.Proofs.Restoration
set_option autoImplicit false

/-!
Walks that end, over nodes of any kind: spans may overlap, point into one another's bodies, and a body
may run on behind its own end. An operand starts behind its head, so the nodes to come bound the depth
within one buffer; a call starts afresh, but where no function is reached from its own body, every
buffer that is entered reaches fewer functions than the one before. Main statement: without circles
among the calls evaluation ends, at a depth that the sizes of the nodes and of the bodies bound.
-/

namespace PrefixCalculus

/-- No function that the nodes reach is reached from its own body. -/
def Acyclic (env : Environment) (nodes : Array Node) : Prop :=
  ∀ f function, Reaches env nodes f → env.function? f = some function →
    ¬ Reaches env function.body.nodes f

namespace Environment

def bodyRoom (env : Environment) (f : FunctionId) : Nat :=
  match env.function? f with
  | none => 0
  | some function => function.body.nodes.size + 1

def room (env : Environment) : Nat :=
  ∑ i ∈ Finset.range env.functionCount, env.bodyRoom ⟨UInt32.ofNat i⟩

section

open Classical

variable {env : Environment} {nodes : Array Node} {f : FunctionId} {function : Function}

noncomputable def placesBelow (env : Environment) (nodes : Array Node) : Finset Nat :=
  (Finset.range env.functionCount).filter fun i => Reaches env nodes ⟨UInt32.ofNat i⟩

noncomputable def roomBelow (env : Environment) (nodes : Array Node) : Nat :=
  ∑ i ∈ env.placesBelow nodes, env.bodyRoom ⟨UInt32.ofNat i⟩

theorem roomBelow_le_room (env : Environment) (nodes : Array Node) : env.roomBelow nodes ≤ env.room :=
  Finset.sum_le_sum_of_subset (Finset.filter_subset _ _)

theorem room_of_call (acyclic : Acyclic env nodes) (hf : Reaches env nodes f)
    (found : env.function? f = some function) :
    function.body.nodes.size + 1 + env.roomBelow function.body.nodes ≤ env.roomBelow nodes := by
  have hlt : f.index.toNat < env.functionCount := by
    obtain ⟨entry, hentry, -⟩ := Option.map_eq_some_iff.1 found
    exact (Array.getElem?_eq_some_iff.1 hentry).1
  have hid : (⟨UInt32.ofNat f.index.toNat⟩ : FunctionId) = f := by rw [UInt32.ofNat_toNat]
  have hroom : function.body.nodes.size + 1 = env.bodyRoom ⟨UInt32.ofNat f.index.toNat⟩ := by
    rw [hid, bodyRoom, found]
  have hnew : f.index.toNat ∉ env.placesBelow function.body.nodes := by
    rw [placesBelow, Finset.mem_filter, hid]
    exact fun h => acyclic f function hf found h.2
  have hsubset : insert f.index.toNat (env.placesBelow function.body.nodes) ⊆ env.placesBelow nodes := by
    intro i hi
    simp only [placesBelow, Finset.mem_insert, Finset.mem_filter, Finset.mem_range] at hi ⊢
    rcases hi with rfl | ⟨hi, hreaches⟩
    · exact ⟨hlt, by rwa [hid]⟩
    · exact ⟨hi, hf.trans found hreaches⟩
  calc function.body.nodes.size + 1 + env.roomBelow function.body.nodes
    _ = ∑ i ∈ insert f.index.toNat (env.placesBelow function.body.nodes),
          env.bodyRoom ⟨UInt32.ofNat i⟩ := by rw [hroom, roomBelow, Finset.sum_insert hnew]
    _ ≤ env.roomBelow nodes := Finset.sum_le_sum_of_subset hsubset

end

end Environment

theorem Acyclic.of_reaches {env : Environment} {nodes : Array Node} {f : FunctionId}
    {function : Function} (acyclic : Acyclic env nodes) (hf : Reaches env nodes f)
    (found : env.function? f = some function) : Acyclic env function.body.nodes :=
  fun g callee hg found' => acyclic g callee (hf.trans found hg) found'

namespace Walk

/-- In every environment with these functions the step has an outcome, no earlier than where it
started. -/
def Halts (entries : Array Entry) (s : Step) (pos : Nat) : Prop :=
  ∀ env, env.entries = entries →
    ∃ w, s env pos = some w ∧ w.env.entries = entries ∧ pos ≤ w.pos

section

variable {entries : Array Entry} {s : Step} {pos : Nat}

section

variable [SpecialFunctions]

theorem unary_halts (op : UnaryOp) (h : Halts entries s pos) : Halts entries (unary s op) pos := by
  intro env henv
  obtain ⟨w, hw, hkept, hpos⟩ := h env henv
  exact ⟨_, bind_eq_some.2 ⟨w, hw, rfl⟩, hkept, hpos⟩

theorem binary_halts (op : BinaryOp) (h : ∀ p, pos ≤ p → Halts entries s p) :
    Halts entries (binary s op) pos := by
  intro env henv
  obtain ⟨a, ha, hakept, hapos⟩ := h pos le_rfl env henv
  obtain ⟨b, hb, hbkept, hbpos⟩ := h a.pos hapos a.env hakept
  exact ⟨_, bind_eq_some.2 ⟨a, ha, bind_eq_some.2 ⟨b, hb, rfl⟩⟩, hbkept, hapos.trans hbpos⟩

end

theorem operands_halts (h : ∀ p, pos ≤ p → Halts entries s p) (count : Nat) :
    ∀ p, pos ≤ p → ∀ env, env.entries = entries → ∃ values after stop,
      operands s count env p = some (values, after, stop) ∧ after.entries = entries ∧ pos ≤ stop := by
  induction count with
  | zero => exact fun p hp env henv => ⟨[], env, p, rfl, henv, hp⟩
  | succ count ih =>
    intro p hp env henv
    obtain ⟨w, hw, hkept, hpos⟩ := h p hp env henv
    obtain ⟨values, after, stop, hrest, hafter, hstop⟩ := ih w.pos (hp.trans hpos) w.env hkept
    exact ⟨_, after, stop, bind_eq_some.2 ⟨w, hw, bind_eq_some.2 ⟨_, hrest, rfl⟩⟩, hafter, hstop⟩

theorem branch_halts (nodes : Array Node) (h : ∀ p, pos ≤ p → Halts entries s p) :
    Halts entries (branch nodes s) pos := by
  intro env henv
  obtain ⟨c, hc, hkept, hpos⟩ := h pos le_rfl env henv
  simp only [branch, hc, Option.bind_eq_bind, Option.bind_some]
  cases hyes : Span.at? nodes c.pos with
  | error => exact ⟨_, rfl, hkept, hpos⟩
  | ok yes =>
    obtain ⟨hystart, hystop, -⟩ := Span.at?_eq_ok hyes
    dsimp only
    cases hno : Span.at? nodes yes.stop with
    | error => exact ⟨_, rfl, hkept, hpos⟩
    | ok no =>
      obtain ⟨hnstart, hnstop, -⟩ := Span.at?_eq_ok hno
      dsimp only
      split
      · exact ⟨_, rfl, hkept, by dsimp only; omega⟩
      · have hbody : pos ≤ if c.value != 0.0 then yes.bodyStart else no.bodyStart := by
          simp only [Span.bodyStart]
          split <;> omega
        obtain ⟨w, hw, hwkept, -⟩ := h _ hbody c.env hkept
        exact ⟨_, bind_eq_some.2 ⟨w, hw, rfl⟩, hwkept, by dsimp only; omega⟩

theorem iterate_halts {start : Nat} (h : Halts entries s start) (kind : Fold) (address : Address)
    (count : Nat) : ∀ (range : LoopRange) (acc : Float) (env : Environment), env.entries = entries →
      ∃ r after, iterate (fun env => s env start) kind address count range acc env = some (r, after) ∧
        after.entries = entries := by
  induction count with
  | zero => exact fun range acc env henv => ⟨acc, env, rfl, henv⟩
  | succ count ih =>
    intro range acc env henv
    rw [iterate]
    cases range.next? with
    | none => exact ⟨acc, env, rfl, henv⟩
    | some next =>
      obtain ⟨w, hw, hkept, -⟩ := h (env.setValue address (ofPosition next.1)) henv
      obtain ⟨r, after, hr, hafter⟩ := ih next.2 (kind.join acc w.value) w.env hkept
      exact ⟨r, after, bind_eq_some.2 ⟨w, hw, hr⟩, hafter⟩

theorem loop_halts (nodes : Array Node) (kind : Fold) (h : ∀ p, pos ≤ p → Halts entries s p) :
    Halts entries (loop nodes s kind) pos := by
  intro env henv
  unfold loop
  split
  · exact ⟨_, rfl, henv, le_rfl⟩
  · rename_i address hvar
    obtain ⟨lower, hl, hlkept, hlpos⟩ := h (pos + 1) (by omega) env henv
    obtain ⟨upper, hu, hukept, hupos⟩ := h lower.pos (by omega) lower.env hlkept
    simp only [hl, hu, Option.bind_eq_bind, Option.bind_some]
    cases hbody : Span.at? nodes upper.pos with
    | error => exact ⟨_, rfl, hukept, by dsimp only; omega⟩
    | ok body =>
      obtain ⟨hstart, hstop, -⟩ := Span.at?_eq_ok hbody
      dsimp only
      cases LoopRange.ofBounds? lower.value upper.value with
      | none => exact ⟨_, rfl, hukept, by dsimp only; omega⟩
      | some range =>
        obtain ⟨r, after, hr, hafter⟩ := iterate_halts
          (h body.bodyStart (by simp only [Span.bodyStart]; omega)) kind address
          range.remaining.toNat range kind.identity upper.env hukept
        exact ⟨_, bind_eq_some.2 ⟨_, Option.map_eq_some_iff.2 ⟨_, hr, rfl⟩, rfl⟩, hafter,
          by dsimp only; omega⟩
  · exact ⟨_, rfl, henv, by dsimp only; omega⟩

theorem call_halts {enter : Array Node → Frame → Environment → Option Walk} {f : FunctionId}
    (argc : UInt32) (h : ∀ p, pos ≤ p → Halts entries s p)
    (henter : ∀ env function frame, env.entries = entries → env.function? f = some function →
      ∃ w, enter function.body.nodes frame env = some w ∧ w.env.entries = entries) :
    Halts entries (call s enter f argc) pos := by
  intro env henv
  obtain ⟨values, after, stop, hargs, hafter, hstop⟩ :=
    operands_halts h argc.toNat pos le_rfl env henv
  simp only [call, hargs, Option.bind_eq_bind, Option.bind_some]
  cases hf : after.function? f with
  | none => exact ⟨_, rfl, hafter, hstop⟩
  | some function =>
    dsimp only
    split
    · exact ⟨_, rfl, hafter, hstop⟩
    · obtain ⟨w, hw, hkept⟩ := henter after function values hafter hf
      exact ⟨_, bind_eq_some.2 ⟨w, hw, rfl⟩, hkept, hstop⟩

end

variable [SpecialFunctions]

/-- A walk is never deeper than there are nodes to come, besides the room of the functions that the
nodes reach. -/
theorem walkAt_halts {env : Environment} (depth : Nat) : ∀ {nodes : Array Node} (frame : Frame)
    (pos : Nat), Acyclic env nodes → nodes.size - pos + 1 + env.roomBelow nodes ≤ depth →
    Halts env.entries (walkAt depth nodes frame) pos := by
  induction depth with
  | zero => intro nodes frame pos _ hdepth; omega
  | succ depth ih =>
    intro nodes frame pos acyclic hdepth
    -- an operand that starts further right, in the same buffer
    have hlater (hpos : pos < nodes.size) (p : Nat) (hp : pos + 1 ≤ p) :
        Halts env.entries (walkAt depth nodes frame) p := ih frame p acyclic (by omega)
    intro env' henv
    cases hn : nodes[pos]? with
    | none => exact ⟨_, by rw [walkAt, hn], henv, le_rfl⟩
    | some node =>
      have hpos : pos < nodes.size := (Array.getElem?_eq_some_iff.1 hn).1
      have ofHead {s : Step} (h : Halts env.entries s (pos + 1))
          (heq : walkAt (depth + 1) nodes frame env' pos = s env' (pos + 1)) :
          ∃ w, walkAt (depth + 1) nodes frame env' pos = some w ∧ w.env.entries = env.entries ∧
            pos ≤ w.pos := by
        obtain ⟨w, hw, hkept, hstop⟩ := h env' henv
        exact ⟨w, heq.trans hw, hkept, by omega⟩
      cases node with
      | literal | ref | arg | opening | closing =>
        exact ⟨_, by rw [walkAt, hn], henv, by dsimp only; omega⟩
      | op op =>
        cases op with
        | unary op => exact ofHead (unary_halts op (hlater hpos _ le_rfl)) (by rw [walkAt, hn])
        | binary op => exact ofHead (binary_halts op (hlater hpos)) (by rw [walkAt, hn])
        | branch => exact ofHead (branch_halts nodes (hlater hpos)) (by rw [walkAt, hn])
        | fold kind => exact ofHead (loop_halts nodes kind (hlater hpos)) (by rw [walkAt, hn])
      | call f argc =>
        refine ofHead (call_halts argc (hlater hpos) fun env'' function values henv'' hf => ?_)
          (by rw [walkAt, hn])
        have found : env.function? f = some function := by
          rw [← hf, Environment.function?, Environment.function?, henv'']
        have hreaches : Reaches env nodes f := .direct ⟨argc, Array.mem_of_getElem? hn⟩
        have hroom := Environment.room_of_call acyclic hreaches found
        obtain ⟨w, hw, hkept, -⟩ :=
          ih values 0 (acyclic.of_reaches hreaches found) (by omega) env'' henv''
        exact ⟨w, hw, hkept⟩

end Walk

/-- **Without circles among the calls evaluation ends**, whatever the nodes are: at the depth that the
nodes and the bodies have room for there is an outcome, in every frame, and every deeper walk has the
same. -/
theorem evaluation_ends_of_acyclic [SpecialFunctions] (env : Environment) (e : Expression)
    (acyclic : Acyclic env e.nodes) :
    (∀ frame, ∃ value stop, ∀ depth, e.nodes.size + 1 + env.room ≤ depth →
      walkAt depth e.nodes frame env 0 = some ⟨value, stop, env⟩) ∧
    ∃ value, ∀ depth, e.nodes.size + 1 + env.room ≤ depth →
      e.evalWithin depth env = some (value, env) := by
  have hroom := env.roomBelow_le_room e.nodes
  have ends (frame : Frame) : ∃ value stop, ∀ depth, e.nodes.size + 1 + env.room ≤ depth →
      walkAt depth e.nodes frame env 0 = some ⟨value, stop, env⟩ := by
    obtain ⟨w, hw, -, -⟩ := Walk.walkAt_halts (e.nodes.size + 1 + env.room) frame 0 acyclic
      (by omega) env rfl
    refine ⟨w.value, w.pos, fun depth hdepth => ?_⟩
    rw [walkAt_mono hdepth _ _ _ _ _ hw, ← walkAt_keeps _ _ _ _ _ _ hw]
  refine ⟨ends, ?_⟩
  cases hnull : e.isNull with
  | true => exact ⟨nan, fun depth _ => by rw [Expression.evalWithin, if_pos hnull]⟩
  | false =>
    obtain ⟨value, stop, h⟩ := ends []
    refine ⟨value, fun depth hdepth => ?_⟩
    rw [Expression.evalWithin, if_neg (by simp [hnull]), h depth hdepth]
    rfl

theorem acyclic_of_rank {env : Environment} (rank : FunctionId → Nat)
    (lower : ∀ f function g, env.function? f = some function → Calls function.body.nodes g →
      rank g < rank f) (nodes : Array Node) : Acyclic env nodes := by
  intro f function _ found hf
  have below (g : FunctionId) (hg : Reaches env function.body.nodes g) : rank g < rank f := by
    induction hg with
    | direct h => exact lower f function _ found h
    | through _ found' h ih => exact (lower _ _ _ found' h).trans ih
  exact lt_irrefl _ (below f hf)

/-- A function that gives the variable and has a node too many, and a function that calls it where the
variable is not zero and else has an empty span. -/
def strayStore : Environment where
  slots := #[⟨some "i", nan⟩]
  entries := #[⟨⟨"g", 0, ⟨#[.ref ⟨0⟩, .closing 9]⟩⟩, true⟩,
    ⟨⟨"h", 0, ⟨#[.op .branch, .ref ⟨0⟩, .opening 2, .call ⟨0⟩ 0, .closing 2, .opening 1, .closing 1]⟩⟩,
      true⟩]

/-- A loop whose body is a loop that ends behind it. -/
def overlappingLoops : Expression where
  nodes := #[.op (.fold .sum), .ref ⟨0⟩, .const 1.0, .const 2.0, .opening 7, .op (.fold .product),
    .ref ⟨0⟩, .const 1.0, .const 3.0, .opening 4, .call ⟨1⟩ 0, .closing 7, .const 0.0, .closing 4]

theorem acyclic_overlappingLoops : Acyclic strayStore overlappingLoops.nodes := by
  refine acyclic_of_rank (fun f => f.index.toNat) (fun f function g found calls => ?_) _
  obtain ⟨entry, hentry, rfl⟩ := Option.map_eq_some_iff.1 found
  obtain ⟨argc, hcall⟩ := calls
  have hlt := (Array.getElem?_eq_some_iff.1 hentry).1
  simp only [strayStore, List.size_toArray, List.length_cons, List.length_nil] at hlt
  obtain h | h : f.index.toNat = 0 ∨ f.index.toNat = 1 := by omega
  · rw [h] at hentry
    cases hentry
    simp [strayStore] at hcall
  · rw [h] at hentry ⊢
    cases hentry
    obtain ⟨rfl, -⟩ : g = ⟨0⟩ ∧ argc = 0 := by simpa [strayStore] using hcall
    decide

open Series

/-- The loops have a value, the same at every depth from twenty-six on. -/
theorem evaluation_ends_overlappingLoops :
    overlappingLoops.check = .error (.unclosedSpan 9) ∧
    Acyclic strayStore overlappingLoops.nodes ∧
    ∃ value, ∀ depth, overlappingLoops.nodes.size + 1 + strayStore.room ≤ depth →
      overlappingLoops.evalWithin depth strayStore = some (value, strayStore) :=
  ⟨by decide +kernel, acyclic_overlappingLoops,
    (evaluation_ends_of_acyclic strayStore overlappingLoops acyclic_overlappingLoops).2⟩

end PrefixCalculus
