import PrefixCalculus.Phrase.Lawful
set_option autoImplicit false

/-!
What lawful parsers that are put together come to, and what their parts have come to if they came to a
value with nothing recorded.
-/

namespace PrefixCalculus

namespace Combinators

variable {C : Combinators} {α β : Type} (lawful : C.Lawful)
include lawful

/-! Derived parsers -/

theorem run_ignoreThen (p : C.Parser α) (q : C.Parser β) (ts : List Token) :
    C.run (C.ignoreThen p q) ts = (C.run p ts).andThen fun _ us => C.run q us := by
  rw [ignoreThen, lawful.map, lawful.seq]
  cases C.run p ts with
  | fail => rfl
  | ok a us recorded =>
    simp only [Outcome.andThen]
    cases C.run q us with
    | fail => rfl
    | ok b vs recorded' => rfl

theorem run_thenIgnore (p : C.Parser α) (q : C.Parser β) (ts : List Token) :
    C.run (C.thenIgnore p q) ts
      = (C.run p ts).andThen fun a us => (C.run q us).map fun _ => a := by
  rw [thenIgnore, lawful.map, lawful.seq]
  cases C.run p ts with
  | fail => rfl
  | ok a us recorded =>
    simp only [Outcome.andThen]
    cases C.run q us with
    | fail => rfl
    | ok b vs recorded' => rfl

/-! From the parts to the whole -/

theorem run_just (t : Token) (ts : List Token) : C.run (C.just t) (t :: ts) = .ok t ts false := by
  rw [lawful.just]
  exact if_pos rfl

theorem run_just_fail {t : Token} {ts : List Token} (h : ts.head? ≠ some t) :
    C.run (C.just t) ts = .fail := by
  rw [lawful.just]
  cases ts with
  | nil => rfl
  | cons u us => exact if_neg fun (heq : u = t) => h (heq ▸ rfl)

theorem run_behind (t : Token) (q : C.Parser β) (ts : List Token) :
    C.run (C.ignoreThen (C.just t) q) (t :: ts) = C.run q ts := by
  rw [run_ignoreThen lawful, run_just lawful]
  simp only [Outcome.andThen, Bool.false_or]
  cases C.run q ts with
  | fail => rfl
  | ok b us recorded => rfl

theorem run_behind_fail {t : Token} (q : C.Parser β) {ts : List Token} (h : ts.head? ≠ some t) :
    C.run (C.ignoreThen (C.just t) q) ts = .fail := by
  rw [run_ignoreThen lawful, run_just_fail lawful h]
  rfl

theorem run_seq_ok {p : C.Parser α} {q : C.Parser β} {ts us vs : List Token} {a : α} {b : β}
    (hp : C.run p ts = .ok a us false) (hq : C.run q us = .ok b vs false) :
    C.run (C.seq p q) ts = .ok (a, b) vs false := by
  rw [lawful.seq, hp]
  simp only [Outcome.andThen, hq, Outcome.map, Bool.false_or]

theorem run_seq_fail {p : C.Parser α} (q : C.Parser β) {ts : List Token} (hp : C.run p ts = .fail) :
    C.run (C.seq p q) ts = .fail := by
  rw [lawful.seq, hp]
  rfl

theorem run_map_ok {p : C.Parser α} (f : α → β) {ts us : List Token} {a : α}
    (hp : C.run p ts = .ok a us false) : C.run (C.map f p) ts = .ok (f a) us false := by
  rw [lawful.map, hp]
  rfl

theorem run_map_fail {p : C.Parser α} (f : α → β) {ts : List Token} (hp : C.run p ts = .fail) :
    C.run (C.map f p) ts = .fail := by
  rw [lawful.map, hp]
  rfl

theorem run_choice_first {p : C.Parser α} (ps : List (C.Parser α)) {ts us : List Token} {a : α}
    (hp : C.run p ts = .ok a us false) : C.run (C.choice (p :: ps)) ts = .ok a us false := by
  rw [lawful.choice_cons, hp]
  rfl

theorem run_choice_next {p : C.Parser α} {ps : List (C.Parser α)} {ts : List Token}
    (hp : C.run p ts = .fail) : C.run (C.choice (p :: ps)) ts = C.run (C.choice ps) ts := by
  rw [lawful.choice_cons, hp]
  rfl

theorem run_orNot_some {p : C.Parser α} {ts us : List Token} {a : α}
    (hp : C.run p ts = .ok a us false) : C.run (C.orNot p) ts = .ok (some a) us false := by
  rw [lawful.orNot, hp]
  rfl

theorem run_orNot_none {p : C.Parser α} {ts : List Token} (hp : C.run p ts = .fail) :
    C.run (C.orNot p) ts = .ok none ts false := by
  rw [lawful.orNot, hp]
  rfl

theorem run_delimitedBy {p : C.Parser α} {start stop : Token} {ts us : List Token} {a : α}
    (hp : C.run p ts = .ok a (stop :: us) false) :
    C.run (C.delimitedBy p start stop) (start :: ts) = .ok a us false := by
  rw [delimitedBy, run_behind lawful]
  exact run_map_ok lawful Prod.fst (run_seq_ok lawful hp (run_just lawful stop us))

theorem run_delimitedBy_fail (p : C.Parser α) {start stop : Token} {ts : List Token}
    (h : ts.head? ≠ some start) : C.run (C.delimitedBy p start stop) ts = .fail :=
  run_behind_fail lawful _ h

/-! From the whole to the parts -/

theorem exists_of_run_map {p : C.Parser α} {f : α → β} {ts us : List Token} {b : β} {recorded : Bool}
    (h : C.run (C.map f p) ts = .ok b us recorded) : ∃ a, C.run p ts = .ok a us recorded ∧ f a = b := by
  rw [lawful.map] at h
  exact Outcome.map_eq_ok_iff.1 h

theorem exists_of_run_seq {p : C.Parser α} {q : C.Parser β} {ts us : List Token} {ab : α × β}
    (h : C.run (C.seq p q) ts = .ok ab us false) :
    ∃ vs, C.run p ts = .ok ab.1 vs false ∧ C.run q vs = .ok ab.2 us false := by
  rw [lawful.seq] at h
  obtain ⟨a, vs, hp, hnext⟩ := Outcome.andThen_eq_ok_iff.1 h
  obtain ⟨b, hq, rfl⟩ := Outcome.map_eq_ok_iff.1 hnext
  exact ⟨vs, hp, hq⟩

theorem exists_of_run_ignoreThen {p : C.Parser α} {q : C.Parser β} {ts us : List Token} {b : β}
    (h : C.run (C.ignoreThen p q) ts = .ok b us false) :
    ∃ a vs, C.run p ts = .ok a vs false ∧ C.run q vs = .ok b us false := by
  obtain ⟨ab, hseq, rfl⟩ := exists_of_run_map lawful h
  obtain ⟨vs, hp, hq⟩ := exists_of_run_seq lawful hseq
  exact ⟨_, vs, hp, hq⟩

theorem exists_of_run_thenIgnore {p : C.Parser α} {q : C.Parser β} {ts us : List Token} {a : α}
    (h : C.run (C.thenIgnore p q) ts = .ok a us false) :
    ∃ b vs, C.run p ts = .ok a vs false ∧ C.run q vs = .ok b us false := by
  obtain ⟨ab, hseq, rfl⟩ := exists_of_run_map lawful h
  obtain ⟨vs, hp, hq⟩ := exists_of_run_seq lawful hseq
  exact ⟨_, vs, hp, hq⟩

theorem exists_of_run_choice {ps : List (C.Parser α)} {ts us : List Token} {a : α} {recorded : Bool}
    (h : C.run (C.choice ps) ts = .ok a us recorded) : ∃ p ∈ ps, C.run p ts = .ok a us recorded := by
  induction ps with
  | nil =>
    rw [lawful.choice_nil] at h
    cases h
  | cons p ps ih =>
    rw [lawful.choice_cons] at h
    rcases Outcome.orElse_eq_ok_iff.1 h with hp | ⟨-, hps⟩
    · exact ⟨p, List.mem_cons_self, hp⟩
    · obtain ⟨q, hmem, hq⟩ := ih hps
      exact ⟨q, List.mem_cons_of_mem p hmem, hq⟩

theorem cases_of_run_orNot {p : C.Parser α} {ts us : List Token} {a? : Option α} {recorded : Bool}
    (h : C.run (C.orNot p) ts = .ok a? us recorded) :
    (∃ a, a? = some a ∧ C.run p ts = .ok a us recorded) ∨ a? = none ∧ us = ts := by
  rw [lawful.orNot] at h
  rcases Outcome.orElse_eq_ok_iff.1 h with hsome | ⟨-, hnone⟩
  · obtain ⟨a, hp, rfl⟩ := Outcome.map_eq_ok_iff.1 hsome
    exact .inl ⟨a, rfl, hp⟩
  · cases hnone
    exact .inr ⟨rfl, rfl⟩

theorem eq_of_run_just {t u : Token} {ts us : List Token} {recorded : Bool}
    (h : C.run (C.just t) ts = .ok u us recorded) : ts = t :: us := by
  rw [lawful.just] at h
  split at h
  · split at h
    · cases h
      rename_i heq
      rw [heq]
    · cases h
  · cases h

theorem exists_of_run_delimitedBy {p : C.Parser α} {start stop : Token} {ts us : List Token} {a : α}
    (h : C.run (C.delimitedBy p start stop) ts = .ok a us false) :
    ∃ vs, ts = start :: vs ∧ C.run p vs = .ok a (stop :: us) false := by
  obtain ⟨_, vs, hstart, hrest⟩ := exists_of_run_ignoreThen lawful h
  obtain ⟨_, ws, hp, hstop⟩ := exists_of_run_thenIgnore lawful hrest
  rw [eq_of_run_just lawful hstop] at hp
  exact ⟨vs, eq_of_run_just lawful hstart, hp⟩

end Combinators

end PrefixCalculus
