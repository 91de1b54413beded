import PrefixCalculus.Phrase.Combinators
set_option autoImplicit false

/-!
What is relied on in parser combinators: choices are ordered and start anew, repetition is greedy and
gives back what did not end in another link, a separator belongs to the item behind it, and recovery
happens only where a parser fails and is recorded.
-/

namespace PrefixCalculus

namespace Outcome

variable {α β : Type}

def map (f : α → β) : Outcome α → Outcome β
  | ok a rest recorded => ok (f a) rest recorded
  | fail => fail

def andThen (o : Outcome α) (next : α → List Token → Outcome β) : Outcome β :=
  match o with
  | ok a rest recorded =>
    match next a rest with
    | ok b rest recorded' => ok b rest (recorded || recorded')
    | fail => fail
  | fail => fail

def orElse (o next : Outcome α) : Outcome α :=
  match o with
  | ok a rest recorded => ok a rest recorded
  | fail => next

theorem map_eq_ok_iff {o : Outcome α} {f : α → β} {b : β} {rest : List Token} {recorded : Bool} :
    o.map f = ok b rest recorded ↔ ∃ a, o = ok a rest recorded ∧ f a = b := by
  cases o with
  | fail => simp [map]
  | ok a us recorded' =>
    simp only [map, ok.injEq]
    exact ⟨fun ⟨ha, hus, hrec⟩ => ⟨a, ⟨rfl, hus, hrec⟩, ha⟩,
      fun ⟨_, ⟨ha, hus, hrec⟩, hb⟩ => ⟨by rw [ha, hb], hus, hrec⟩⟩

theorem orElse_eq_ok_iff {o next : Outcome α} {a : α} {rest : List Token} {recorded : Bool} :
    o.orElse next = ok a rest recorded ↔
      o = ok a rest recorded ∨ o = fail ∧ next = ok a rest recorded := by
  cases o with
  | fail => simp [orElse]
  | ok b us recorded' => simp [orElse]

theorem andThen_eq_ok_iff {o : Outcome α} {next : α → List Token → Outcome β} {b : β}
    {rest : List Token} : o.andThen next = ok b rest false ↔
      ∃ a us, o = ok a us false ∧ next a us = ok b rest false := by
  cases o with
  | fail => simp [andThen]
  | ok a us recorded =>
    cases h : next a us with
    | fail =>
      simp only [andThen, h, reduceCtorEq, false_iff, ok.injEq]
      rintro ⟨_, _, ⟨rfl, rfl, -⟩, h'⟩
      exact absurd (h.symm.trans h') (by simp)
    | ok c vs recorded' =>
      simp only [andThen, h, ok.injEq, Bool.or_eq_false_iff]
      constructor
      · rintro ⟨rfl, rfl, rfl, rfl⟩
        exact ⟨a, us, ⟨rfl, rfl, rfl⟩, h⟩
      · rintro ⟨_, _, ⟨rfl, rfl, rfl⟩, h'⟩
        cases h.symm.trans h'
        exact ⟨rfl, rfl, rfl, rfl⟩

end Outcome

/-- Links are taken as long as there are any; each takes a token at least. -/
inductive Repeats {α β : Type} (link : List Token → Outcome β) (f : α → β → α) :
    α → List Token → α → List Token → Bool → Prop
  | stop {a : α} {ts : List Token} (h : link ts = .fail) : Repeats link f a ts a ts false
  | step {a c : α} {b : β} {ts us vs : List Token} {recorded recorded' : Bool}
    (h : link ts = .ok b us recorded) (shorter : us.length < ts.length)
    (more : Repeats link f (f a b) us c vs recorded') :
    Repeats link f a ts c vs (recorded || recorded')

namespace Combinators

variable (C : Combinators)

def Agree {α : Type} (n : Nat) (p q : C.Parser α) : Prop :=
  ∀ ts, ts.length < n → C.run p ts = C.run q ts

/-- What is built from a parser uses it only behind a token. -/
def Guarded {α : Type} (f : C.Parser α → C.Parser α) : Prop :=
  ∀ n p q, C.Agree n p q → C.Agree (n + 1) (f p) (f q)

structure Lawful : Prop where
  shorter : ∀ {α : Type} {p : C.Parser α} {ts us : List Token} {a : α} {recorded : Bool},
    C.run p ts = .ok a us recorded → us.length ≤ ts.length
  just : ∀ (t : Token) (ts : List Token), C.run (C.just t) ts =
    match ts with
    | u :: us => if u = t then .ok t us false else .fail
    | [] => .fail
  select : ∀ {α : Type} (f : Token → Option α) (ts : List Token), C.run (C.select f) ts =
    match ts with
    | u :: us => (match f u with | some a => .ok a us false | none => .fail)
    | [] => .fail
  finish : ∀ ts : List Token, C.run C.finish ts = if ts.isEmpty then .ok () [] false else .fail
  map : ∀ {α β : Type} (f : α → β) (p : C.Parser α) (ts : List Token),
    C.run (C.map f p) ts = (C.run p ts).map f
  seq : ∀ {α β : Type} (p : C.Parser α) (q : C.Parser β) (ts : List Token),
    C.run (C.seq p q) ts = (C.run p ts).andThen fun a us => (C.run q us).map fun b => (a, b)
  choice_nil : ∀ {α : Type} (ts : List Token), C.run (C.choice ([] : List (C.Parser α))) ts = .fail
  choice_cons : ∀ {α : Type} (p : C.Parser α) (ps : List (C.Parser α)) (ts : List Token),
    C.run (C.choice (p :: ps)) ts = (C.run p ts).orElse (C.run (C.choice ps) ts)
  orNot : ∀ {α : Type} (p : C.Parser α) (ts : List Token),
    C.run (C.orNot p) ts = ((C.run p ts).map some).orElse (.ok none ts false)
  foldl_fail : ∀ {α β : Type} {p : C.Parser α} (link : C.Parser β) (f : α → β → α)
    {ts : List Token}, C.run p ts = .fail → C.run (C.foldl p link f) ts = .fail
  foldl_ok : ∀ {α β : Type} {p : C.Parser α} {link : C.Parser β} {f : α → β → α}
    {ts us vs : List Token} {a b : α} {recorded recorded' : Bool}, C.run p ts = .ok a us recorded →
    Repeats (C.run link) f a us b vs recorded' →
    C.run (C.foldl p link f) ts = .ok b vs (recorded || recorded')
  separatedBy_fail : ∀ {α β : Type} {p : C.Parser α} (separator : C.Parser β) {ts : List Token},
    C.run p ts = .fail → C.run (C.separatedBy p separator) ts = .ok [] ts false
  separatedBy_ok : ∀ {α β : Type} {p : C.Parser α} {separator : C.Parser β}
    {ts us vs : List Token} {a : α} {as : List α} {recorded recorded' : Bool},
    C.run p ts = .ok a us recorded →
    Repeats (C.run (C.ignoreThen separator p)) (fun as a => as ++ [a]) [a] us as vs recorded' →
    C.run (C.separatedBy p separator) ts = .ok as vs (recorded || recorded')
  recover_ok : ∀ {α : Type} {p : C.Parser α} (strategy : C.Parser α) {ts us : List Token} {a : α}
    {recorded : Bool}, C.run p ts = .ok a us recorded →
    C.run (C.recoverWith p strategy) ts = .ok a us recorded
  recover_fail : ∀ {α : Type} {p : C.Parser α} (strategy : C.Parser α) {ts : List Token},
    C.run p ts = .fail → C.run (C.recoverWith p strategy) ts =
      match C.run strategy ts with
      | .ok a us _ => .ok a us true
      | .fail => .fail
  nested_fail : ∀ {α : Type} {start : Token} (stop : Token) (value : α) {ts : List Token},
    ts.head? ≠ some start → C.run (C.nestedDelimiters start stop value) ts = .fail
  labelled : ∀ {α : Type} (label : String) (p : C.Parser α), C.run (C.labelled label p) = C.run p
  recursive : ∀ {α : Type} {f : C.Parser α → C.Parser α}, C.Guarded f →
    C.run (C.recursive f) = C.run (f (C.recursive f))
  parse_ok : ∀ {α : Type} {p : C.Parser α} {ts us : List Token} {a : α} {recorded : Bool},
    C.run p ts = .ok a us recorded →
    (C.parse p ts).1 = some a ∧ ((C.parse p ts).2 = [] ↔ recorded = false)
  parse_fail : ∀ {α : Type} {p : C.Parser α} {ts : List Token}, C.run p ts = .fail →
    (C.parse p ts).1 = none ∧ (C.parse p ts).2 ≠ []

end Combinators

end PrefixCalculus
