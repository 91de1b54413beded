import PrefixCalculus.Phrase.Combinators
set_option autoImplicit false

/-!
Combinators that read tokens from left to right. Beside its value, a reader gives how far the tokens
were tried: where nothing fits, what is found wrong is the token that was tried last. What was found
wrong on a way that was given up is dropped.
-/

namespace PrefixCalculus

structure Input where
  tokens : List Token
  left : Nat
  left_eq : left = tokens.length

namespace Input

def of (ts : List Token) : Input :=
  ⟨ts, ts.length, rfl⟩

def next? (i : Input) : Option (Token × Input) :=
  match h : i.tokens with
  | [] => none
  | t :: ts => some (t, ⟨ts, i.left - 1, by rw [i.left_eq, h, List.length_cons, Nat.add_sub_cancel]⟩)

theorem left_of_next? {i rest : Input} {t : Token} (h : i.next? = some (t, rest)) :
    i.left = rest.left + 1 := by
  obtain ⟨tokens, left, left_eq⟩ := i
  cases tokens with
  | nil => cases h
  | cons u us =>
    cases h
    exact left_eq.trans (by simp [left_eq])

def fault (i : Input) : Fault :=
  i.tokens.head?

def further (i j : Input) : Input :=
  if j.left < i.left then j else i

/-- What follows the closing one of delimiters that are open so many times. -/
def afterClosing? (start stop : Token) : Nat → Nat → Input → Option Input
  | 0, _, _ => none
  | steps + 1, depth, i =>
    match i.next? with
    | none => none
    | some (t, i) =>
      if t = start then afterClosing? start stop steps (depth + 1) i
      else if t = stop then
        if depth ≤ 1 then some i else afterClosing? start stop steps (depth - 1) i
      else afterClosing? start stop steps depth i

theorem left_of_afterClosing? {start stop : Token} {steps : Nat} : ∀ {depth : Nat} {i rest : Input},
    afterClosing? start stop steps depth i = some rest → rest.left ≤ i.left := by
  induction steps with
  | zero =>
    intro _ _ _ h
    cases h
  | succ steps ih =>
    intro depth i rest h
    rw [afterClosing?] at h
    split at h
    · cases h
    · rename_i t next hnext
      have hleft := left_of_next? hnext
      split at h
      · exact Nat.le_trans (ih h) (by omega)
      · split at h
        · split at h
          · cases h
            omega
          · exact Nat.le_trans (ih h) (by omega)
        · exact Nat.le_trans (ih h) (by omega)

end Input

/-- A value with what is left, or none; what was found wrong, and how far the tokens were tried. -/
inductive Result (α : Type)
  | ok (value : α) (rest : Input) (faults : List Fault) (reach : Input)
  | fail (faults : List Fault) (reach : Input)

namespace Result

variable {α β : Type}

def map (f : α → β) : Result α → Result β
  | ok a rest faults reach => ok (f a) rest faults reach
  | fail faults reach => fail faults reach

def behind (faults : List Fault) (reach : Input) : Result α → Result α
  | ok a rest faults' reach' => ok a rest (faults ++ faults') (reach.further reach')
  | fail faults' reach' => fail (faults ++ faults') (reach.further reach')

def outcome : Result α → Outcome α
  | ok a rest faults _ => .ok a rest.tokens !faults.isEmpty
  | fail _ _ => .fail

def Leaves (left : Nat) : Result α → Prop
  | ok _ rest _ _ => rest.left ≤ left
  | fail _ _ => True

theorem Leaves.map {left : Nat} {r : Result α} (h : r.Leaves left) (f : α → β) :
    (r.map f).Leaves left := by
  cases r with
  | ok => exact h
  | fail => exact h

theorem Leaves.behind {left : Nat} {r : Result α} (h : r.Leaves left) (faults : List Fault)
    (reach : Input) : (r.behind faults reach).Leaves left := by
  cases r with
  | ok => exact h
  | fail => exact h

theorem Leaves.mono {left left' : Nat} {r : Result α} (h : r.Leaves left) (hle : left ≤ left') :
    r.Leaves left' := by
  cases r with
  | ok => exact Nat.le_trans h hle
  | fail => exact h

end Result

structure Reader (α : Type) where
  read : Input → Result α
  leaves : ∀ i, (read i).Leaves i.left

namespace Reader

variable {α β : Type}

def run (p : Reader α) (ts : List Token) : Outcome α :=
  (p.read (.of ts)).outcome

def parse (p : Reader α) (ts : List Token) : Option α × List Fault :=
  match p.read (.of ts) with
  | .ok a _ faults _ => (some a, faults)
  | .fail faults reach => (none, faults ++ [reach.fault])

def failing : Reader α where
  read i := .fail [] i
  leaves _ := trivial

def select (f : Token → Option α) : Reader α where
  read i :=
    match i.next? with
    | none => .fail [] i
    | some (t, rest) =>
      match f t with
      | some a => .ok a rest [] i
      | none => .fail [] i
  leaves i := by
    cases h : i.next? with
    | none => trivial
    | some next =>
      have hleft := Input.left_of_next? h
      dsimp only
      split
      · exact Nat.le.intro hleft.symm
      · trivial

def just (t : Token) : Reader Token :=
  select fun u => if u = t then some t else none

def finish : Reader Unit where
  read i := if i.tokens.isEmpty then .ok () i [] i else .fail [] i
  leaves i := by
    split
    · exact Nat.le_refl i.left
    · trivial

def map (f : α → β) (p : Reader α) : Reader β where
  read i := (p.read i).map f
  leaves i := (p.leaves i).map f

def seq (p : Reader α) (q : Reader β) : Reader (α × β) where
  read i :=
    match p.read i with
    | .ok a rest faults reach => ((q.read rest).map fun b => (a, b)).behind faults reach
    | .fail faults reach => .fail faults reach
  leaves i := by
    have hp := p.leaves i
    split
    · rename_i a rest faults reach h
      rw [h] at hp
      exact (((q.leaves rest).map _).behind faults reach).mono hp
    · trivial

def or (p q : Reader α) : Reader α where
  read i :=
    match p.read i with
    | .ok a rest faults reach => .ok a rest faults reach
    | .fail _ reach => (q.read i).behind [] reach
  leaves i := by
    have hp := p.leaves i
    split
    · rename_i h
      rwa [h] at hp
    · exact (q.leaves i).behind [] _

def choice (ps : List (Reader α)) : Reader α :=
  ps.foldr or failing

def orNot (p : Reader α) : Reader (Option α) where
  read i :=
    match p.read i with
    | .ok a rest faults reach => .ok (some a) rest faults reach
    | .fail _ reach => .ok none i [] reach
  leaves i := by
    have hp := p.leaves i
    split
    · rename_i h
      rwa [h] at hp
    · exact Nat.le_refl i.left

section

variable (link : Reader β) (f : α → β → α)

def links : Nat → α → Input → List Fault → Input → Result α
  | 0, a, i, faults, reach => .ok a i faults reach
  | steps + 1, a, i, faults, reach =>
    match link.read i with
    | .ok b rest faults' reach' =>
      if rest.left < i.left then
        links steps (f a b) rest (faults ++ faults') (reach.further reach')
      else .ok a i faults reach
    | .fail _ reach' => .ok a i faults (reach.further reach')

theorem leaves_links (steps : Nat) : ∀ (a : α) (i : Input) (faults : List Fault) (reach : Input),
    (links link f steps a i faults reach).Leaves i.left := by
  induction steps with
  | zero => exact fun _ i _ _ => Nat.le_refl i.left
  | succ steps ih =>
    intro a i faults reach
    rw [links]
    split
    · split
      · exact (ih _ _ _ _).mono (Nat.le_of_lt ‹_›)
      · exact Nat.le_refl i.left
    · exact Nat.le_refl i.left

def foldl (p : Reader α) : Reader α where
  read i :=
    match p.read i with
    | .ok a rest faults reach => links link f (rest.left + 1) a rest faults reach
    | .fail faults reach => .fail faults reach
  leaves i := by
    have hp := p.leaves i
    split
    · rename_i h
      rw [h] at hp
      exact (leaves_links link f _ _ _ _ _).mono hp
    · trivial

end

def separatedBy (p : Reader α) (separator : Reader β) : Reader (List α) :=
  map (fun as? => as?.getD [])
    (orNot (foldl (map Prod.snd (seq separator p)) (fun as a => as ++ [a]) (map (fun a => [a]) p)))

/-- Where a reader fails, what it found wrong is recorded if the strategy goes on. -/
def recoverWith (p strategy : Reader α) : Reader α where
  read i :=
    match p.read i with
    | .ok a rest faults reach => .ok a rest faults reach
    | .fail _ reach =>
      match strategy.read i with
      | .ok a rest faults reach' => .ok a rest (faults ++ [reach.fault]) reach'
      | .fail _ _ => .fail [] reach
  leaves i := by
    have hp := p.leaves i
    have hstrategy := strategy.leaves i
    split
    · rename_i h
      rwa [h] at hp
    · split
      · rename_i h
        rwa [h] at hstrategy
      · trivial

def nestedDelimiters (start stop : Token) (value : α) : Reader α where
  read i :=
    match i.next? with
    | none => .fail [] i
    | some (t, rest) =>
      if t = start then
        match Input.afterClosing? start stop (rest.left + 1) 1 rest with
        | some rest => .ok value rest [] i
        | none => .fail [] i
      else .fail [] i
  leaves i := by
    cases h : i.next? with
    | none => trivial
    | some next =>
      have hleft := Input.left_of_next? h
      dsimp only
      split
      · split
        · rename_i hafter
          exact Nat.le_trans (Input.left_of_afterClosing? hafter) (Nat.le.intro hleft.symm)
        · trivial
      · trivial

def unfolded (f : Reader α → Reader α) : Nat → Reader α
  | 0 => failing
  | depth + 1 => f ⟨fun i => (unfolded f depth).read i, fun i => (unfolded f depth).leaves i⟩

/-- A reader that uses itself behind a token only needs as many uses as there are tokens. -/
def recursive (f : Reader α → Reader α) : Reader α where
  read i := (unfolded f (i.left + 1)).read i
  leaves i := (unfolded f (i.left + 1)).leaves i

end Reader

def reader : Combinators where
  Parser := Reader
  run := Reader.run
  parse := Reader.parse
  just := Reader.just
  select := Reader.select
  finish := Reader.finish
  map := Reader.map
  seq := Reader.seq
  choice := Reader.choice
  orNot := Reader.orNot
  foldl p link f := Reader.foldl link f p
  separatedBy := Reader.separatedBy
  recoverWith := Reader.recoverWith
  nestedDelimiters := Reader.nestedDelimiters
  labelled _ p := p
  recursive := Reader.recursive

end PrefixCalculus
