set_option autoImplicit false

/-!
What can be wrong with a buffer of nodes, and how it is told.
-/

namespace PrefixCalculus

inductive Defect
  /-- The buffer ends where an operand should stand. -/
  | truncated (position : Nat)
  /-- Nodes follow the one expression. -/
  | trailing (stop leftover : Nat)
  /-- An opening node without a closing node at its distance, or a body that ends elsewhere. -/
  | unclosedSpan (start : Nat)
  /-- A span marker where an operand should stand. -/
  | strayMarker (position : Nat)
  /-- A plain operand where a span should stand. -/
  | spanExpected (position : Nat)
  /-- A fold whose first operand is no variable. -/
  | variableExpected (position : Nat)
  deriving DecidableEq, Repr

def Defect.message : Defect → String
  | truncated position =>
    s!"Expression ended unexpectedly at node {position}, an operand is missing."
  | trailing stop leftover =>
    s!"Expression has {leftover} trailing node(s) after the root subtree ending at {stop}."
  | unclosedSpan start =>
    s!"Thunk span starting at node {start} is not closed by a matching `thunk_jmp` marker."
  | strayMarker position => s!"Unexpected `thunk_jmp` marker at node {position}."
  | spanExpected position => s!"Expected a thunk span at node {position}."
  | variableExpected position =>
    s!"Loop construct at node {position} must bind a variable reference."

end PrefixCalculus
