import PrefixCalculus.Environment
import PrefixCalculus.LoopRange
import PrefixCalculus.Operator.Value
set_option autoImplicit false

/-!
Evaluation of flat expressions by a walk over the buffer. A walk never fails: a missing operand, a
misplaced node, an unknown function or a wrong number of arguments gives NaN, and the walk goes on
behind what it has read. Loop variables are written to the environment and put back; the arguments of
a call form the frame of the callee's body. A walk through recursive functions need not end, so every
walk has a depth that it may not exceed, and no outcome beyond it.
-/

namespace PrefixCalculus

variable [SpecialFunctions]

/-- The outcome of a walk: the value, the position after what was read, and the environment. -/
structure Walk where
  value : Float
  pos : Nat
  env : Environment

abbrev Frame := List Float

abbrev Step := Environment → Nat → Option Walk

namespace Walk

def operands (step : Step) : Nat → Environment → Nat → Option (List Float × Environment × Nat)
  | 0, env, pos => some ([], env, pos)
  | count + 1, env, pos => do
    let w ← step env pos
    let (values, env, pos) ← operands step count w.env w.pos
    return (w.value :: values, env, pos)

def unary (step : Step) (op : UnaryOp) (env : Environment) (pos : Nat) : Option Walk := do
  let w ← step env pos
  return { w with value := op.apply w.value }

def binary (step : Step) (op : BinaryOp) (env : Environment) (pos : Nat) : Option Walk := do
  let a ← step env pos
  let b ← step a.env a.pos
  return { b with value := op.apply a.value b.value }

def branch (nodes : Array Node) (step : Step) (env : Environment) (pos : Nat) : Option Walk := do
  let c ← step env pos
  match Span.at? nodes c.pos with
  | .error _ => return { c with value := nan }
  | .ok yes =>
    match Span.at? nodes yes.stop with
    | .error _ => return { c with value := nan }
    | .ok no =>
      if c.value.isNaN then return { c with value := nan, pos := no.stop }
      else
        let w ← step c.env (if c.value != 0.0 then yes.bodyStart else no.bodyStart)
        return { w with pos := no.stop }

def iterate (body : Environment → Option Walk) (kind : Fold) (address : Address) :
    Nat → LoopRange → Float → Environment → Option (Float × Environment)
  | 0, _, acc, env => some (acc, env)
  | count + 1, range, acc, env =>
    match range.next? with
    | none => some (acc, env)
    | some (i, range) => do
      let w ← body (env.setValue address (ofPosition i))
      iterate body kind address count range (kind.join acc w.value) w.env

def loop (nodes : Array Node) (step : Step) (kind : Fold) (env : Environment) (pos : Nat) :
    Option Walk :=
  match nodes[pos]? with
  | none => some ⟨nan, pos, env⟩
  | some (.ref address) => do
    let lower ← step env (pos + 1)
    let upper ← step lower.env lower.pos
    match Span.at? nodes upper.pos with
    | .error _ => return { upper with value := nan }
    | .ok body =>
      match LoopRange.ofBounds? lower.value upper.value with
      | none => return { upper with value := nan, pos := body.stop }
      | some range =>
        let (acc, env) ← upper.env.binding address
          (iterate (fun env => step env body.bodyStart) kind address range.remaining.toNat range
            kind.identity)
        return ⟨acc, body.stop, env⟩
  | some _ => some ⟨nan, pos + 1, env⟩

def call (step : Step) (enter : Array Node → Frame → Environment → Option Walk)
    (f : FunctionId) (argc : UInt32) (env : Environment) (pos : Nat) : Option Walk := do
  let (values, env, pos) ← operands step argc.toNat env pos
  match env.function? f with
  | none => return ⟨nan, pos, env⟩
  | some function =>
    if function.argc != argc || function.body.isNull then return ⟨nan, pos, env⟩
    else
      let w ← enter function.body.nodes values env
      return { w with pos }

end Walk

/-- Evaluate the operand at a position of a buffer, at most `depth` operands deep. -/
def walkAt : Nat → Array Node → Frame → Step
  | 0, _, _, _, _ => none
  | depth + 1, nodes, frame, env, pos =>
    match nodes[pos]? with
    | none => some ⟨nan, pos, env⟩
    | some (.literal x) => some ⟨x.value, pos + 1, env⟩
    | some (.ref address) => some ⟨env.value address, pos + 1, env⟩
    | some (.arg index) => some ⟨(frame[index.toNat]?).getD nan, pos + 1, env⟩
    | some (.op (.unary op)) => Walk.unary (walkAt depth nodes frame) op env (pos + 1)
    | some (.op (.binary op)) => Walk.binary (walkAt depth nodes frame) op env (pos + 1)
    | some (.op .branch) => Walk.branch nodes (walkAt depth nodes frame) env (pos + 1)
    | some (.op (.fold kind)) => Walk.loop nodes (walkAt depth nodes frame) kind env (pos + 1)
    | some (.call f argc) =>
      Walk.call (walkAt depth nodes frame) (fun body frame env => walkAt depth body frame env 0)
        f argc env (pos + 1)
    | some (.opening _) | some (.closing _) => some ⟨nan, pos + 1, env⟩

namespace Expression

def evalWithin (depth : Nat) (e : Expression) (env : Environment) : Option (Float × Environment) :=
  if e.isNull then some (nan, env)
  else (walkAt depth e.nodes [] env 0).map fun w => (w.value, w.env)

/-- A depth that no walk on a machine of ordinary size reaches. -/
def walkDepth : Nat := 10000000

def eval (e : Expression) (env : Environment) : Option (Float × Environment) :=
  e.evalWithin walkDepth env

def tabulate (e : Expression) (address : Address) :
    List Float → Environment → Option (List Float × Environment)
  | [], env => some ([], env)
  | value :: values, env => do
    let (first, env) ← e.eval (env.setValue address value)
    let (rest, env) ← tabulate e address values env
    return (first :: rest, env)

/-- The value of an expression without variables, parameters and calls. Every operand starts behind
its head, so the size bounds the depth. -/
def closedValue (e : Expression) : Float :=
  match e.evalWithin (e.size + 1) Environment.empty with
  | some (value, _) => value
  | none => nan

end Expression

end PrefixCalculus
