import PrefixCalculus.Expression
set_option autoImplicit false

/-!
The check that a buffer is exactly one expression: every head has its operands, every delayed operand
lies in a span that its body fills, every loop binds a variable, and nothing follows.
-/

namespace PrefixCalculus

def checkOperands (check : Nat → Except Defect Nat) : Nat → Nat → Except Defect Nat
  | 0, pos => .ok pos
  | count + 1, pos => do checkOperands check count (← check pos)

def checkDelayed (nodes : Array Node) (check : Nat → Except Defect Nat) (pos : Nat) :
    Except Defect Nat := do
  let span ← Span.at? nodes pos
  let stop ← check span.bodyStart
  if stop = span.bodyStop then .ok span.stop else .error (.unclosedSpan pos)

/-- Check the operand at a position and give the position after it. An operand starts behind its
head, so the size of the buffer bounds the depth of the nesting. -/
def checkFrom (nodes : Array Node) : Nat → Nat → Except Defect Nat
  | 0, pos => .error (.truncated pos)
  | depth + 1, pos =>
    match nodes[pos]? with
    | none => .error (.truncated pos)
    | some (.literal _) | some (.ref _) | some (.arg _) => .ok (pos + 1)
    | some (.opening _) | some (.closing _) => .error (.strayMarker pos)
    | some (.call _ argc) => checkOperands (checkFrom nodes depth) argc.toNat (pos + 1)
    | some (.op .branch) => do
      let pos ← checkFrom nodes depth (pos + 1)
      let pos ← checkDelayed nodes (checkFrom nodes depth) pos
      checkDelayed nodes (checkFrom nodes depth) pos
    | some (.op (.fold _)) =>
      match nodes[pos + 1]? with
      | some (.ref _) => do
        let pos ← checkOperands (checkFrom nodes depth) 2 (pos + 2)
        checkDelayed nodes (checkFrom nodes depth) pos
      | _ => .error (.variableExpected pos)
    | some (.op op) => checkOperands (checkFrom nodes depth) op.arity (pos + 1)

def checkOperandAt (nodes : Array Node) (pos : Nat) : Except Defect Nat :=
  checkFrom nodes (nodes.size + 1) pos

def checkBuffer (nodes : Array Node) : Except Defect Unit := do
  let stop ← checkOperandAt nodes 0
  if stop = nodes.size then .ok () else .error (.trailing stop (nodes.size - stop))

namespace Expression

def check (e : Expression) : Except Defect Unit :=
  checkBuffer e.nodes

def ofNodes? (nodes : Array Node) : Except Defect Expression :=
  if nodes.isEmpty then .ok null
  else do
    checkBuffer nodes
    return ⟨nodes⟩

end Expression

end PrefixCalculus
