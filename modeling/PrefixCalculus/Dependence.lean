import PrefixCalculus.Environment
set_option autoImplicit false

/-!
On which variables and parameters the value of an expression may depend. A variable counts when it
occurs in the expression or in the body of a function that is reached through calls; every function
is entered once.
-/

namespace PrefixCalculus

inductive Target
  | var (address : Address)
  | arg (index : UInt32)
  deriving DecidableEq, Repr

namespace Target

def isNode : Target → Node → Bool
  | var a, .ref b => a == b
  | arg i, .arg j => i == j
  | _, _ => false

end Target

namespace Dependence

/-- Look through nodes for the address, entering the bodies of functions not yet visited; tells
whether it was found and which functions are visited then. -/
def search (env : Environment) (address : Address)
    (enter : List FunctionId → Array Node → Bool × List FunctionId) :
    List FunctionId → List Node → Bool × List FunctionId
  | visited, [] => (false, visited)
  | visited, .ref a :: rest =>
    if a = address then (true, visited) else search env address enter visited rest
  | visited, .call f _ :: rest =>
    if visited.contains f then search env address enter visited rest
    else
      match env.function? f with
      | none => search env address enter (f :: visited) rest
      | some function =>
        match enter (f :: visited) function.body.nodes with
        | (true, visited) => (true, visited)
        | (false, visited) => search env address enter visited rest
  | visited, _ :: rest => search env address enter visited rest

def searchWithin (env : Environment) (address : Address) :
    Nat → List FunctionId → Array Node → Bool × List FunctionId
  | 0, visited, _ => (false, visited)
  | depth + 1, visited, nodes =>
    search env address (searchWithin env address depth) visited nodes.toList

end Dependence

namespace Expression

/-- May the value depend on the variable? Each call that is entered leads to another function, so
their number bounds the depth. -/
def dependsOnVar (e : Expression) (address : Address) (env : Environment) : Bool :=
  (Dependence.searchWithin env address (env.functionCount + 1) [] e.nodes).1

def dependsOn (e : Expression) (target : Target) (env : Environment) : Bool :=
  match target with
  | .var address => e.dependsOnVar address env
  | .arg _ => e.nodes.any target.isNode

end Expression

end PrefixCalculus
