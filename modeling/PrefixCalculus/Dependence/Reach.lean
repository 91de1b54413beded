import PrefixCalculus.Dependence
set_option autoImplicit false

/-!
Which functions nodes reach through calls, and which variables they read. A function is reached when
it is called in the nodes, or in the body of a function that is reached; calls may go round in
circles. Main statements: whatever a called body reaches or reads, the nodes do.
-/

namespace PrefixCalculus

def Calls (nodes : Array Node) (f : FunctionId) : Prop :=
  ∃ argc, Node.call f argc ∈ nodes

/-- The function is called in the nodes, or in the body of a function that is reached. -/
inductive Reaches (env : Environment) (nodes : Array Node) : FunctionId → Prop
  | direct {f : FunctionId} (h : Calls nodes f) : Reaches env nodes f
  | through {f g : FunctionId} {function : Function} (reached : Reaches env nodes f)
      (found : env.function? f = some function) (h : Calls function.body.nodes g) :
      Reaches env nodes g

def Reads (env : Environment) (nodes : Array Node) (address : Address) : Prop :=
  Node.ref address ∈ nodes ∨
    ∃ f function, Reaches env nodes f ∧ env.function? f = some function ∧
      Node.ref address ∈ function.body.nodes

theorem Reaches.trans {env : Environment} {nodes : Array Node} {f g : FunctionId}
    {function : Function} (hf : Reaches env nodes f) (found : env.function? f = some function)
    (hg : Reaches env function.body.nodes g) : Reaches env nodes g := by
  induction hg with
  | direct h => exact .through hf found h
  | through _ found' h ih => exact .through ih found' h

theorem Reads.of_reaches {env : Environment} {nodes : Array Node} {f : FunctionId}
    {function : Function} {address : Address} (hf : Reaches env nodes f)
    (found : env.function? f = some function) (h : Reads env function.body.nodes address) :
    Reads env nodes address := by
  rcases h with h | ⟨g, callee, hg, found', h⟩
  · exact .inr ⟨f, function, hf, found, h⟩
  · exact .inr ⟨g, callee, hf.trans found hg, found', h⟩

end PrefixCalculus
