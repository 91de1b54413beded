import Mathlib.Data.Finset.Card
import PrefixCalculus.Dependence.Reach
set_option autoImplicit false

/-!
The search for a variable through nodes and the functions that they reach. Every function is entered
once, so the depth of the search never runs out: the functions not yet visited become fewer with every
call that is entered. Main statement: the search finds the variable exactly if the nodes read it,
whatever circles the calls go round in.
-/

namespace PrefixCalculus

namespace Environment

section

open Classical

variable {env : Environment} {p q : FunctionId → Prop}

noncomputable def countFunctions (env : Environment) (p : FunctionId → Prop) : Nat :=
  ((Finset.range env.functionCount).filter fun i => p ⟨UInt32.ofNat i⟩).card

theorem countFunctions_le (env : Environment) (p : FunctionId → Prop) :
    env.countFunctions p ≤ env.functionCount := by
  have h := Finset.card_filter_le (Finset.range env.functionCount) fun i => p ⟨UInt32.ofNat i⟩
  rwa [Finset.card_range] at h

theorem countFunctions_mono (h : ∀ f, p f → q f) : env.countFunctions p ≤ env.countFunctions q :=
  Finset.card_le_card (Finset.monotone_filter_right _ fun _ _ hp => h _ hp)

theorem countFunctions_lt {f : FunctionId} {function : Function} (h : ∀ f, p f → q f)
    (found : env.function? f = some function) (hq : q f) (hp : ¬p f) :
    env.countFunctions p < env.countFunctions q := by
  have hlt : f.index.toNat < env.functionCount := by
    obtain ⟨entry, hentry, -⟩ := Option.map_eq_some_iff.1 found
    exact (Array.getElem?_eq_some_iff.1 hentry).1
  have hid : (⟨UInt32.ofNat f.index.toNat⟩ : FunctionId) = f := by rw [UInt32.ofNat_toNat]
  refine Finset.card_lt_card (Finset.ssubset_iff_of_subset ?_ |>.2 ⟨f.index.toNat, ?_, ?_⟩)
  · exact Finset.monotone_filter_right _ fun _ _ hp => h _ hp
  · rw [Finset.mem_filter, hid]
    exact ⟨Finset.mem_range.2 hlt, hq⟩
  · rw [Finset.mem_filter, hid]
    exact fun hf => hp hf.2

theorem countFunctions_cons {f : FunctionId} {function : Function} {visited : List FunctionId}
    (found : env.function? f = some function) (hf : f ∉ visited) :
    env.countFunctions (· ∉ f :: visited) < env.countFunctions (· ∉ visited) :=
  countFunctions_lt (fun _ hg h => hg (List.mem_cons_of_mem _ h)) found hf (by simp)

end

end Environment

namespace Dependence

/-- The search without a bound on its depth: whether it finds the variable in the nodes, and which
functions are visited before it and after it. The body of a function is searched where the function is
called first. -/
inductive Searches (env : Environment) (address : Address) :
    List FunctionId → List Node → Bool → List FunctionId → Prop
  | done {visited : List FunctionId} : Searches env address visited [] false visited
  | found {visited : List FunctionId} {nodes : List Node} :
      Searches env address visited (.ref address :: nodes) true visited
  | other {before after : List FunctionId} {node : Node} {nodes : List Node} {found : Bool}
      (href : node ≠ .ref address) (hcall : ∀ f argc, node ≠ .call f argc)
      (rest : Searches env address before nodes found after) :
      Searches env address before (node :: nodes) found after
  | seen {before after : List FunctionId} {f : FunctionId} {argc : UInt32} {nodes : List Node}
      {found : Bool} (hf : f ∈ before) (rest : Searches env address before nodes found after) :
      Searches env address before (.call f argc :: nodes) found after
  | unknown {before after : List FunctionId} {f : FunctionId} {argc : UInt32} {nodes : List Node}
      {found : Bool} (hf : f ∉ before) (unknown : env.function? f = none)
      (rest : Searches env address (f :: before) nodes found after) :
      Searches env address before (.call f argc :: nodes) found after
  | inside {before after : List FunctionId} {f : FunctionId} {argc : UInt32} {nodes : List Node}
      {function : Function} (hf : f ∉ before) (known : env.function? f = some function)
      (body : Searches env address (f :: before) function.body.nodes.toList true after) :
      Searches env address before (.call f argc :: nodes) true after
  | outside {before middle after : List FunctionId} {f : FunctionId} {argc : UInt32}
      {nodes : List Node} {found : Bool} {function : Function} (hf : f ∉ before)
      (known : env.function? f = some function)
      (body : Searches env address (f :: before) function.body.nodes.toList false middle)
      (rest : Searches env address middle nodes found after) :
      Searches env address before (.call f argc :: nodes) found after

def Closed (env : Environment) (address : Address) (visited : List FunctionId) (f : FunctionId) :
    Prop :=
  ∀ function, env.function? f = some function →
    Node.ref address ∉ function.body.nodes ∧ ∀ g, Calls function.body.nodes g → g ∈ visited

/-- What a search that did not find the variable has done, from what was visited before. -/
structure Explored (env : Environment) (address : Address) (before : List FunctionId)
    (nodes : List Node) (visited : List FunctionId) : Prop where
  kept : ∀ f ∈ before, f ∈ visited
  absent : Node.ref address ∉ nodes
  called : ∀ f argc, Node.call f argc ∈ nodes → f ∈ visited
  closed : ∀ f ∈ visited, f ∉ before → Closed env address visited f

section

variable {env : Environment} {address : Address} {f : FunctionId} {before visited : List FunctionId}
  {nodes : List Node}

theorem Closed.mono {more : List FunctionId} (h : Closed env address visited f)
    (hmore : ∀ g ∈ visited, g ∈ more) : Closed env address more f := by
  intro function found
  obtain ⟨habsent, hcalls⟩ := h function found
  exact ⟨habsent, fun g hg => hmore g (hcalls g hg)⟩

theorem Explored.cons {node : Node} (h : Explored env address before nodes visited)
    (href : node ≠ .ref address) (hcall : ∀ f argc, node = .call f argc → f ∈ visited) :
    Explored env address before (node :: nodes) visited where
  kept := h.kept
  absent hmem := (List.mem_cons.1 hmem).elim (fun e => href e.symm) h.absent
  called f argc hmem := (List.mem_cons.1 hmem).elim (fun e => hcall f argc e.symm) (h.called f argc)
  closed := h.closed

theorem Explored.unknown {argc : UInt32} (h : Explored env address (f :: before) nodes visited)
    (unknown : env.function? f = none) :
    Explored env address before (.call f argc :: nodes) visited where
  kept g hg := h.kept g (List.mem_cons_of_mem _ hg)
  absent := by simpa using h.absent
  called g argc' hmem := by
    rcases List.mem_cons.1 hmem with e | hmem
    · cases e
      exact h.kept f (by simp)
    · exact h.called g argc' hmem
  closed g hg hbefore function found := by
    by_cases e : g = f
    · rw [e, unknown] at found
      cases found
    · exact h.closed g hg (by simp [e, hbefore]) function found

theorem Explored.entered {argc : UInt32} {function : Function} {middle : List FunctionId}
    (found : env.function? f = some function)
    (hbody : Explored env address (f :: before) function.body.nodes.toList middle)
    (h : Explored env address middle nodes visited) :
    Explored env address before (.call f argc :: nodes) visited where
  kept g hg := h.kept g (hbody.kept g (List.mem_cons_of_mem _ hg))
  absent := by simpa using h.absent
  called g argc' hmem := by
    rcases List.mem_cons.1 hmem with e | hmem
    · cases e
      exact h.kept f (hbody.kept f (by simp))
    · exact h.called g argc' hmem
  closed g hg hbefore := by
    by_cases hmiddle : g ∈ middle
    · refine Closed.mono ?_ h.kept
      by_cases e : g = f
      · intro callee found'
        rw [e, found] at found'
        cases found'
        refine ⟨fun href => hbody.absent (by simpa using href), ?_⟩
        rintro callee ⟨argc', hcall⟩
        exact hbody.called callee argc' (by simpa using hcall)
      · exact hbody.closed g hmiddle (by simp [e, hbefore])
    · exact h.closed g hg hmiddle

theorem Searches.explored {found : Bool} (h : Searches env address before nodes found visited) :
    found = false → Explored env address before nodes visited := by
  induction h with
  | done =>
    intro _
    exact ⟨fun _ hf => hf, by simp, by simp, fun f hf hbefore => absurd hf hbefore⟩
  | found => rintro ⟨⟩
  | other href hcall _ ih => exact fun h => (ih h).cons href fun f argc e => absurd e (hcall f argc)
  | seen hf _ ih =>
    intro h
    refine (ih h).cons (by simp) fun g argc e => ?_
    cases e
    exact (ih h).kept _ hf
  | unknown _ hunknown _ ih => exact fun h => (ih h).unknown hunknown
  | inside => rintro ⟨⟩
  | outside _ known _ _ ihbody ihrest => exact fun h => .entered known (ihbody rfl) (ihrest h)

theorem Explored.not_reads {nodes : Array Node} (h : Explored env address [] nodes.toList visited) :
    ¬Reads env nodes address := by
  have hreached : ∀ f, Reaches env nodes f → f ∈ visited := by
    intro f hf
    induction hf with
    | direct hcall =>
      obtain ⟨argc, hcall⟩ := hcall
      exact h.called _ argc (by simpa using hcall)
    | through _ found hcall ih => exact (h.closed _ ih (by simp) _ found).2 _ hcall
  rintro (href | ⟨f, function, hf, found, href⟩)
  · exact h.absent (by simpa using href)
  · exact (h.closed f (hreached f hf) (by simp) function found).1 href

theorem Searches.reads {found : Bool} (h : Searches env address before nodes found visited) :
    ∀ whole : Array Node, (∀ node ∈ nodes, node ∈ whole) → found = true → Reads env whole address := by
  induction h with
  | done => rintro _ _ ⟨⟩
  | found => exact fun whole hmem _ => .inl (hmem _ (by simp))
  | other _ _ _ ih | seen _ _ ih | unknown _ _ _ ih =>
    exact fun whole hmem => ih whole (List.forall_mem_cons.1 hmem).2
  | inside _ known _ ih =>
    intro whole hmem _
    exact .of_reaches (.direct ⟨_, hmem _ List.mem_cons_self⟩) known
      (ih _ (fun node hnode => by simpa using hnode) rfl)
  | outside _ _ _ _ _ ih => exact fun whole hmem => ih whole (List.forall_mem_cons.1 hmem).2

theorem Searches.kept {found : Bool} (h : Searches env address before nodes found visited) :
    ∀ f ∈ before, f ∈ visited := by
  induction h with
  | done | found => exact fun _ hf => hf
  | other _ _ _ ih | seen _ _ ih => exact ih
  | unknown _ _ _ ih | inside _ _ _ ih => exact fun g hg => ih g (List.mem_cons_of_mem _ hg)
  | outside _ _ _ _ ihbody ihrest => exact fun g hg => ihrest g (ihbody g (List.mem_cons_of_mem _ hg))

/-- The search through nodes is the one without a bound, if entering a body is while fewer functions are
left than now. -/
theorem searches_search {enter : List FunctionId → Array Node → Bool × List FunctionId} {depth : Nat}
    (henter : ∀ before nodes, env.countFunctions (· ∉ before) < depth →
      Searches env address before nodes.toList (enter before nodes).1 (enter before nodes).2) :
    ∀ {before}, env.countFunctions (· ∉ before) < depth + 1 →
      Searches env address before nodes (search env address enter before nodes).1
        (search env address enter before nodes).2 := by
  induction nodes with
  | nil => exact fun _ => .done
  | cons node nodes ih =>
    intro before hcount
    cases node with
    | ref a =>
      rw [search]
      split
      · rename_i ha
        rw [ha]
        exact .found
      · rename_i ha
        exact .other (by simpa using ha) (by simp) (ih hcount)
    | call f argc =>
      rw [search]
      split
      · rename_i hf
        exact .seen (by simpa using hf) (ih hcount)
      · rename_i hf
        have hf : f ∉ before := by simpa using hf
        split
        · rename_i unknown
          have hle : env.countFunctions (· ∉ f :: before) ≤ env.countFunctions (· ∉ before) :=
            Environment.countFunctions_mono fun g hg hmem => hg (List.mem_cons_of_mem _ hmem)
          exact .unknown hf unknown (ih (by omega))
        · rename_i function known
          have hlt := Environment.countFunctions_cons known hf
          have hbody := henter (f :: before) function.body.nodes (by omega)
          split
          · rename_i middle hmiddle
            simp only [hmiddle] at hbody
            exact .inside hf known hbody
          · rename_i middle hmiddle
            simp only [hmiddle] at hbody
            have hle : env.countFunctions (· ∉ middle) ≤ env.countFunctions (· ∉ f :: before) :=
              Environment.countFunctions_mono fun g hg hmem => hg (hbody.kept g hmem)
            exact .outside hf known hbody (ih (by omega))
    | literal | arg | op | opening | closing => exact .other (by simp) (by simp) (ih hcount)

/-- A search that is deeper than the functions left are many does not run into its bound. -/
theorem searches_searchWithin (depth : Nat) :
    ∀ before nodes, env.countFunctions (· ∉ before) < depth →
      Searches env address before nodes.toList (searchWithin env address depth before nodes).1
        (searchWithin env address depth before nodes).2 := by
  induction depth with
  | zero => intro before nodes hcount; omega
  | succ depth ih => exact fun before nodes hcount => searches_search ih hcount

end

end Dependence

theorem Expression.searches_dependsOnVar (e : Expression) (address : Address) (env : Environment) :
    ∃ visited, Dependence.Searches env address [] e.nodes.toList (e.dependsOnVar address env) visited :=
  ⟨_, Dependence.searches_searchWithin _ _ _ (Nat.lt_succ_of_le (env.countFunctions_le _))⟩

/-- A search from the beginning finds the variable exactly if the nodes read it. -/
theorem Dependence.Searches.iff_reads {env : Environment} {address : Address} {nodes : Array Node}
    {found : Bool} {visited : List FunctionId}
    (h : Searches env address [] nodes.toList found visited) :
    found = true ↔ Reads env nodes address := by
  cases found with
  | true => exact iff_of_true rfl (h.reads nodes (fun node hnode => by simpa using hnode) rfl)
  | false => exact iff_of_false Bool.false_ne_true (h.explored rfl).not_reads

theorem Expression.dependsOnVar_iff (e : Expression) (address : Address) (env : Environment) :
    e.dependsOnVar address env = true ↔ Reads env e.nodes address := by
  obtain ⟨visited, h⟩ := e.searches_dependsOnVar address env
  exact h.iff_reads

/-- **Dependence is reachability.** For every store, whatever circles the calls go round in, and every
buffer of nodes, the search for a variable without a bound on its depth ends, always with the same
answer; it is yes exactly if the variable occurs in the nodes or in the body of a function that they
reach. -/
theorem Expression.dependsOn_var_iff_reads (e : Expression) (address : Address) (env : Environment) :
    (∀ found, (∃ visited, Dependence.Searches env address [] e.nodes.toList found visited) ↔
        found = e.dependsOn (.var address) env) ∧
      (e.dependsOn (.var address) env = true ↔ Reads env e.nodes address) := by
  obtain ⟨visited, h⟩ := e.searches_dependsOnVar address env
  refine ⟨fun found => ⟨?_, ?_⟩, h.iff_reads⟩
  · rintro ⟨visited', h'⟩
    exact Bool.eq_iff_iff.2 (h'.iff_reads.trans h.iff_reads.symm)
  · rintro rfl
    exact ⟨visited, h⟩

end PrefixCalculus
