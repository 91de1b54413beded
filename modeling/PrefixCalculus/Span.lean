import PrefixCalculus.Defect
import PrefixCalculus.Node
set_option autoImplicit false

/-!
Spans in a buffer of nodes, read positions over it, and where an operand ends. A span is skipped by
the distance in its opening node, without a look at its body. Main statements: a span that is read
lies inside the buffer, and the end of an operand lies behind its start and inside the buffer, whatever
the nodes are.
-/

namespace PrefixCalculus

/-- A span whose two markers were seen to match; `size` counts both. -/
structure Span where
  start : Nat
  size : Nat
  deriving DecidableEq, Repr

namespace Span

def bodyStart (s : Span) : Nat := s.start + 1

def bodyStop (s : Span) : Nat := s.start + s.size - 1

def stop (s : Span) : Nat := s.start + s.size

def closes (distance : UInt32) : Option Node → Bool
  | some (.closing back) => back == distance && 0 < distance
  | _ => false

def at? (nodes : Array Node) (start : Nat) : Except Defect Span :=
  match nodes[start]? with
  | none => .error (.truncated start)
  | some (.opening distance) =>
    if closes distance nodes[start + distance.toNat]? then .ok ⟨start, distance.toNat + 1⟩
    else .error (.unclosedSpan start)
  | some _ => .error (.spanExpected start)

theorem closes_eq_true {distance : UInt32} {node : Option Node} (h : closes distance node = true) :
    node = some (.closing distance) ∧ 0 < distance := by
  unfold closes at h
  split at h
  · simp only [Bool.and_eq_true, beq_iff_eq, decide_eq_true_eq] at h
    exact ⟨by rw [h.1], h.2⟩
  · simp at h

/-- A span that is read opens at its start, closes inside the buffer and has room for a body. -/
theorem at?_eq_ok {nodes : Array Node} {start : Nat} {s : Span} (h : at? nodes start = .ok s) :
    s.start = start ∧ start + 1 < s.stop ∧ s.stop ≤ nodes.size := by
  unfold at? at h
  split at h
  · simp at h
  · rename_i distance _
    split at h
    · rename_i hc
      obtain ⟨hn, hd⟩ := closes_eq_true hc
      obtain ⟨hlt, _⟩ := Array.getElem?_eq_some_iff.1 hn
      have hd : 0 < distance.toNat := UInt32.lt_iff_toNat_lt.1 hd
      cases h
      refine ⟨rfl, ?_, ?_⟩ <;> simp only [stop] <;> omega
    · simp at h
  · simp at h

end Span

/-- Skip `pending` operands, from `pos` on; `left` nodes at most are looked at. -/
def skipOperands (nodes : Array Node) : Nat → Nat → Nat → Except Defect Nat
  | _, 0, pos => .ok pos
  | 0, _ + 1, pos => .error (.truncated pos)
  | left + 1, pending + 1, pos =>
    match nodes[pos]? with
    | none => .error (.truncated pos)
    | some (.literal _) | some (.ref _) | some (.arg _) => skipOperands nodes left pending (pos + 1)
    | some (.op op) => skipOperands nodes left (pending + op.arity) (pos + 1)
    | some (.call _ argc) => skipOperands nodes left (pending + argc.toNat) (pos + 1)
    | some (.opening _) =>
      match Span.at? nodes pos with
      | .ok span => skipOperands nodes left pending span.stop
      | .error d => .error d
    | some (.closing _) => .error (.strayMarker pos)

def operandStop (nodes : Array Node) (pos : Nat) : Except Defect Nat :=
  skipOperands nodes (nodes.size - pos) 1 pos

theorem skipOperands_bounds {nodes : Array Node} :
    ∀ {left pending pos stop : Nat}, skipOperands nodes left pending pos = .ok stop →
      pos ≤ nodes.size → pos ≤ stop ∧ stop ≤ nodes.size := by
  intro left
  induction left with
  | zero =>
    intro pending pos stop h hp
    cases pending <;> simp [skipOperands] at h
    omega
  | succ left ih =>
    intro pending pos stop h hp
    cases pending with
    | zero => simp [skipOperands] at h; omega
    | succ pending =>
      rw [skipOperands] at h
      split at h
      · simp at h
      all_goals (rename_i hn; have hlt := (Array.getElem?_eq_some_iff.1 hn).1)
      · have := ih h (by omega); omega
      · have := ih h (by omega); omega
      · have := ih h (by omega); omega
      · have := ih h (by omega); omega
      · have := ih h (by omega); omega
      · split at h
        · rename_i hs
          have hb := Span.at?_eq_ok hs
          have := ih h (by omega)
          omega
        · simp at h
      · simp at h

theorem operandStop_bounds {nodes : Array Node} {pos stop : Nat}
    (h : operandStop nodes pos = .ok stop) : pos < stop ∧ stop ≤ nodes.size := by
  unfold operandStop at h
  cases hl : nodes.size - pos with
  | zero => rw [hl] at h; simp [skipOperands] at h
  | succ left =>
    rw [hl, skipOperands] at h
    split at h
    · simp at h
    · have := skipOperands_bounds h (by omega); omega
    · have := skipOperands_bounds h (by omega); omega
    · have := skipOperands_bounds h (by omega); omega
    · have := skipOperands_bounds h (by omega); omega
    · have := skipOperands_bounds h (by omega); omega
    · split at h
      · rename_i hs
        have hb := Span.at?_eq_ok hs
        have := skipOperands_bounds h (by omega)
        omega
      · simp at h
    · simp at h

def readRow {m : Type → Type} [Monad m] {α : Type} (read : Nat → m (α × Nat)) :
    Nat → Nat → m (List α × Nat)
  | 0, pos => pure ([], pos)
  | count + 1, pos => do
    let (a, pos) ← read pos
    let (as, pos) ← readRow read count pos
    return (a :: as, pos)

structure Cursor where
  nodes : Array Node
  pos : Nat

namespace Cursor

def seek (c : Cursor) (pos : Nat) : Cursor :=
  { c with pos }

def peek? (c : Cursor) : Option Node :=
  c.nodes[c.pos]?

def next (c : Cursor) : Option Node × Cursor :=
  match c.peek? with
  | none => (none, c)
  | some node => (some node, c.seek (c.pos + 1))

def span? (c : Cursor) : Except Defect Span :=
  Span.at? c.nodes c.pos

/-- Move past the operand at the position; on a defect the position stays. -/
def skip (c : Cursor) : Except Defect Unit × Cursor :=
  match operandStop c.nodes c.pos with
  | .ok stop => (.ok (), c.seek stop)
  | .error d => (.error d, c)

end Cursor

end PrefixCalculus
