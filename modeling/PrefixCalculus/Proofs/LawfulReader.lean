import Mathlib.Order.Nat
import PrefixCalculus.Phrase.Lawful
import PrefixCalculus.Phrase.Reader
set_option autoImplicit false

/-!
The combinators that read from left to right are lawful. Main statement: `reader_lawful`.
-/

namespace PrefixCalculus

theorem Input.eq_of (i : Input) : i = .of i.tokens := by
  obtain ⟨tokens, left, rfl⟩ := i
  rfl

namespace Result

variable {α β : Type}

theorem outcome_map (r : Result α) (f : α → β) : (r.map f).outcome = r.outcome.map f := by
  cases r <;> rfl

theorem outcome_behind (r : Result α) (faults : List Fault) (reach : Input) :
    (r.behind faults reach).outcome = match r.outcome with
      | .ok a us recorded => .ok a us (!faults.isEmpty || recorded)
      | .fail => .fail := by
  cases r with
  | ok a rest faults' reach' => cases faults <;> cases faults' <;> rfl
  | fail => rfl

theorem outcome_eq_fail {r : Result α} (h : r.outcome = .fail) :
    ∃ faults reach, r = .fail faults reach := by
  cases r with
  | ok => cases h
  | fail faults reach => exact ⟨faults, reach, rfl⟩

theorem outcome_eq_ok {r : Result α} {a : α} {us : List Token} {recorded : Bool}
    (h : r.outcome = .ok a us recorded) :
    ∃ faults reach, r = .ok a (.of us) faults reach ∧ recorded = !faults.isEmpty := by
  cases r with
  | ok b rest faults reach =>
    cases h
    exact ⟨faults, reach, by rw [← rest.eq_of], rfl⟩
  | fail => cases h

end Result

namespace Reader

variable {α β : Type}

theorem run_select (f : Token → Option α) (ts : List Token) : (select f).run ts =
    match ts with
    | u :: us => (match f u with | some a => .ok a us false | none => .fail)
    | [] => .fail := by
  cases ts with
  | nil => rfl
  | cons u us =>
    have hread : (select f).read (.of (u :: us)) = match f u with
        | some a => .ok a (.of us) [] (.of (u :: us))
        | none => .fail [] (.of (u :: us)) := rfl
    simp only [run, hread]
    cases f u <;> rfl

theorem run_just (t : Token) (ts : List Token) : (just t).run ts =
    match ts with
    | u :: us => if u = t then .ok t us false else .fail
    | [] => .fail := by
  rw [just, run_select]
  cases ts with
  | nil => rfl
  | cons u us =>
    by_cases h : u = t
    · simp only [if_pos h]
    · simp only [if_neg h]

theorem run_finish (ts : List Token) :
    finish.run ts = if ts.isEmpty then .ok () [] false else .fail := by
  cases ts <;> rfl

theorem run_map (f : α → β) (p : Reader α) (ts : List Token) :
    (p.map f).run ts = (p.run ts).map f :=
  Result.outcome_map _ f

theorem run_seq (p : Reader α) (q : Reader β) (ts : List Token) : (p.seq q).run ts =
    (p.run ts).andThen fun a us => (q.run us).map fun b => (a, b) := by
  simp only [run, seq]
  cases p.read (.of ts) with
  | fail => rfl
  | ok a rest faults reach =>
    rw [rest.eq_of, Result.outcome_behind, Result.outcome_map]
    rfl

theorem run_or (p q : Reader α) (ts : List Token) : (p.or q).run ts = (p.run ts).orElse (q.run ts) := by
  simp only [run, or]
  cases p.read (.of ts) with
  | ok => rfl
  | fail =>
    rw [Result.outcome_behind]
    cases (q.read (.of ts)).outcome <;> rfl

theorem run_orNot (p : Reader α) (ts : List Token) :
    p.orNot.run ts = ((p.run ts).map some).orElse (.ok none ts false) := by
  simp only [run, orNot]
  cases p.read (.of ts) <;> rfl

/-! Repetition -/

theorem outcome_links {link : Reader β} {f : α → β → α} {a c : α} {ts us : List Token}
    {recorded : Bool} (h : Repeats link.run f a ts c us recorded) :
    ∀ {steps : Nat}, ts.length < steps → ∀ (faults : List Fault) (reach : Input),
      (links link f steps a (.of ts) faults reach).outcome = .ok c us (!faults.isEmpty || recorded) := by
  induction h with
  | stop hlink =>
    intro steps hsteps faults reach
    obtain ⟨steps, rfl⟩ := Nat.exists_eq_add_one_of_ne_zero (Nat.ne_zero_of_lt hsteps)
    obtain ⟨faults', reach', hread⟩ := Result.outcome_eq_fail hlink
    rw [links, hread]
    simp [Result.outcome, Input.of]
  | step hlink shorter _ ih =>
    intro steps hsteps faults reach
    obtain ⟨steps, rfl⟩ := Nat.exists_eq_add_one_of_ne_zero (Nat.ne_zero_of_lt hsteps)
    obtain ⟨faults', reach', hread, rfl⟩ := Result.outcome_eq_ok hlink
    simp only [links, hread]
    rw [if_pos (show (Input.of _).left < (Input.of _).left from shorter),
      ih (shorter.trans_le (Nat.le_of_lt_succ hsteps))]
    cases faults <;> cases faults' <;> simp

theorem run_foldl_fail {p : Reader α} (link : Reader β) (f : α → β → α) {ts : List Token}
    (h : p.run ts = .fail) : (foldl link f p).run ts = .fail := by
  obtain ⟨faults, reach, hread⟩ := Result.outcome_eq_fail h
  simp only [run, foldl, hread]
  rfl

theorem run_foldl_ok {p : Reader α} {link : Reader β} {f : α → β → α} {ts us vs : List Token}
    {a b : α} {recorded recorded' : Bool} (h : p.run ts = .ok a us recorded)
    (more : Repeats link.run f a us b vs recorded') :
    (foldl link f p).run ts = .ok b vs (recorded || recorded') := by
  obtain ⟨faults, reach, hread, rfl⟩ := Result.outcome_eq_ok h
  simp only [run, foldl, hread]
  exact outcome_links more (Nat.lt_succ_self _) faults reach

theorem run_separatedBy (p : Reader α) (separator : Reader β) (ts : List Token) :
    (p.separatedBy separator).run ts
      = ((((foldl ((separator.seq p).map Prod.snd) (fun as a => as ++ [a])
          (p.map fun a => [a])).run ts).map some).orElse (.ok none ts false)).map
            fun as? => as?.getD [] := by
  rw [separatedBy, run_map, run_orNot]

theorem run_separatedBy_fail {p : Reader α} (separator : Reader β) {ts : List Token}
    (h : p.run ts = .fail) : (p.separatedBy separator).run ts = .ok [] ts false := by
  have hfirst : (p.map fun a => [a]).run ts = .fail := by
    rw [run_map, h]
    rfl
  rw [run_separatedBy, run_foldl_fail _ _ hfirst]
  rfl

theorem run_separatedBy_ok {p : Reader α} {separator : Reader β} {ts us vs : List Token} {a : α}
    {as : List α} {recorded recorded' : Bool} (h : p.run ts = .ok a us recorded)
    (more : Repeats ((separator.seq p).map Prod.snd).run (fun as a => as ++ [a]) [a] us as vs
      recorded') : (p.separatedBy separator).run ts = .ok as vs (recorded || recorded') := by
  have hfirst : (p.map fun a => [a]).run ts = .ok [a] us recorded := by
    rw [run_map, h]
    rfl
  rw [run_separatedBy, run_foldl_ok hfirst more]
  rfl

/-! Recursion -/

theorem unfolded_succ (f : Reader α → Reader α) (depth : Nat) :
    unfolded f (depth + 1) = f (unfolded f depth) :=
  rfl

theorem agree_unfolded {f : Reader α → Reader α} (guarded : reader.Guarded f) :
    ∀ {n m : Nat}, n ≤ m → reader.Agree n (unfolded f n) (unfolded f m)
  | 0, _, _, _, hts => absurd hts (Nat.not_lt_zero _)
  | n + 1, m + 1, hle, ts, hts => by
    rw [unfolded_succ, unfolded_succ]
    exact guarded n _ _ (agree_unfolded guarded (Nat.le_of_succ_le_succ hle)) ts hts

theorem run_recursive {f : Reader α → Reader α} (guarded : reader.Guarded f) :
    (recursive f).run = (f (recursive f)).run := by
  have agree (n : Nat) : reader.Agree n (unfolded f n) (recursive f) :=
    fun ts hts => (agree_unfolded guarded hts ts (Nat.lt_succ_self _)).symm
  funext ts
  exact guarded ts.length _ _ (agree ts.length) ts (Nat.lt_succ_self _)

/-! Recovery -/

theorem run_recoverWith_ok {p : Reader α} (strategy : Reader α) {ts us : List Token} {a : α}
    {recorded : Bool} (h : p.run ts = .ok a us recorded) :
    (p.recoverWith strategy).run ts = .ok a us recorded := by
  obtain ⟨faults, reach, hread, rfl⟩ := Result.outcome_eq_ok h
  simp only [run, recoverWith, hread]
  rfl

theorem run_recoverWith_fail {p : Reader α} (strategy : Reader α) {ts : List Token}
    (h : p.run ts = .fail) : (p.recoverWith strategy).run ts =
      match strategy.run ts with
      | .ok a us _ => .ok a us true
      | .fail => .fail := by
  obtain ⟨faults, reach, hread⟩ := Result.outcome_eq_fail h
  simp only [run, recoverWith, hread]
  cases strategy.read (.of ts) with
  | ok => simp [Result.outcome]
  | fail => rfl

theorem run_nestedDelimiters_fail {start : Token} (stop : Token) (value : α) {ts : List Token}
    (h : ts.head? ≠ some start) : (nestedDelimiters start stop value).run ts = .fail := by
  cases ts with
  | nil => rfl
  | cons t ts =>
    have hstart : t ≠ start := fun heq => h (heq ▸ rfl)
    have hread : (nestedDelimiters start stop value).read (.of (t :: ts)) = .fail [] (.of (t :: ts)) :=
      if_neg hstart
    rw [run, hread]
    rfl

theorem parse_ok {p : Reader α} {ts us : List Token} {a : α} {recorded : Bool}
    (h : p.run ts = .ok a us recorded) :
    (p.parse ts).1 = some a ∧ ((p.parse ts).2 = [] ↔ recorded = false) := by
  obtain ⟨faults, reach, hread, rfl⟩ := Result.outcome_eq_ok h
  rw [parse, hread]
  exact ⟨rfl, by simp⟩

theorem parse_fail {p : Reader α} {ts : List Token} (h : p.run ts = .fail) :
    (p.parse ts).1 = none ∧ (p.parse ts).2 ≠ [] := by
  obtain ⟨faults, reach, hread⟩ := Result.outcome_eq_fail h
  rw [parse, hread]
  exact ⟨rfl, by simp⟩

theorem length_le_of_run {p : Reader α} {ts us : List Token} {a : α} {recorded : Bool}
    (h : p.run ts = .ok a us recorded) : us.length ≤ ts.length := by
  obtain ⟨faults, reach, hread, -⟩ := Result.outcome_eq_ok h
  have hleaves := p.leaves (.of ts)
  rw [hread] at hleaves
  exact hleaves

end Reader

open Reader in
/-- **Reading from left to right is lawful.** -/
theorem reader_lawful : reader.Lawful where
  shorter := length_le_of_run
  just := run_just
  select := run_select
  finish := run_finish
  map := run_map
  seq := run_seq
  choice_nil _ := rfl
  choice_cons p ps := run_or p (choice ps)
  orNot := run_orNot
  foldl_fail := run_foldl_fail
  foldl_ok := run_foldl_ok
  separatedBy_fail := run_separatedBy_fail
  separatedBy_ok := run_separatedBy_ok
  recover_ok := run_recoverWith_ok
  recover_fail := run_recoverWith_fail
  nested_fail := run_nestedDelimiters_fail
  labelled _ _ := rfl
  recursive := run_recursive
  parse_ok := parse_ok
  parse_fail := parse_fail

end PrefixCalculus
