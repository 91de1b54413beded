import PrefixCalculus.Proofs.PhraseReading
import PrefixCalculus.Proofs.PhraseSoundness
set_option autoImplicit false

/-!
What texts are accepted as, by any lawful parsers. A parser that goes on where something is wrong has
recorded it, so nothing it went on with is accepted. Main statements: tokens are accepted as the phrase
that they denote, and as a definition if they are a heading in front of such tokens.
-/

namespace PrefixCalculus

/-! Headings -/

def nameTokens : List String → List Token
  | [] => []
  | p :: ps => .name p :: ps.flatMap fun q => [.comma, .name q]

def Heading.tokens (h : Heading) : List Token :=
  .name h.name :: .lparen :: (nameTokens h.params ++ [.rparen, .assign])

namespace Combinators

open Phrase

variable {C : Combinators} (lawful : C.Lawful)
include lawful

section

variable {α : Type} {p : C.Parser α} {ts : List Token}

theorem parse_clean_iff : (C.parse p ts).2 = [] ↔ ∃ a us, C.run p ts = .ok a us false := by
  cases hrun : C.run p ts with
  | fail => simp [(lawful.parse_fail hrun).2]
  | ok a us recorded =>
    rw [(lawful.parse_ok hrun).2]
    simp

theorem run_whole_iff {a : α} {us : List Token} :
    C.run (C.thenIgnore p C.finish) ts = .ok a us false ↔ C.run p ts = .ok a [] false ∧ us = [] := by
  rw [run_thenIgnore lawful, Outcome.andThen_eq_ok_iff]
  simp only [lawful.finish, Outcome.map_eq_ok_iff]
  constructor
  · rintro ⟨b, vs, hrun, _, hfinish, rfl⟩
    split at hfinish
    next hvs =>
      cases hfinish
      exact ⟨by rwa [List.isEmpty_iff.1 hvs] at hrun, rfl⟩
    · cases hfinish
  · rintro ⟨hrun, rfl⟩
    exact ⟨a, [], hrun, (), rfl, rfl⟩

theorem accept_eq_ok_iff {a : α} : C.accept p ts = .ok a ↔ C.run p ts = .ok a [] false := by
  rw [accept]
  cases hrun : C.run (C.thenIgnore p C.finish) ts with
  | fail =>
    obtain ⟨hnone, hfaults⟩ := lawful.parse_fail hrun
    have hno : C.run p ts ≠ .ok a [] false := fun h => by
      cases hrun.symm.trans ((run_whole_iff lawful).2 ⟨h, rfl⟩)
    generalize C.parse (C.thenIgnore p C.finish) ts = result at hnone hfaults
    obtain ⟨a?, faults⟩ := result
    subst hnone
    simp [hno]
  | ok b us recorded =>
    obtain ⟨hsome, hfaults⟩ := lawful.parse_ok hrun
    generalize C.parse (C.thenIgnore p C.finish) ts = result at hsome hfaults
    obtain ⟨b?, faults⟩ := result
    subst hsome
    cases recorded with
    | false =>
      cases hfaults.2 rfl
      obtain ⟨hb, -⟩ := (run_whole_iff lawful).1 hrun
      simp [hb]
    | true =>
      have hno : C.run p ts ≠ .ok a [] false := fun h => by
        cases hrun.symm.trans ((run_whole_iff lawful).2 ⟨h, rfl⟩)
      obtain ⟨fault, rest, rfl⟩ := List.exists_cons_of_ne_nil fun h => Bool.noConfusion (hfaults.1 h)
      simp [hno]

theorem exists_of_accept_error {e : TextError} (h : C.accept p ts = .error e) :
    ∃ fault faults, e = .diagnostics ((fault :: faults).map .reading) := by
  rw [accept] at h
  split at h
  · cases h
  next a? faults hno hparse =>
    cases h
    suffices faults ≠ [] by
      obtain ⟨fault, rest, rfl⟩ := List.exists_cons_of_ne_nil this
      exact ⟨fault, rest, rfl⟩
    rintro rfl
    cases hrun : C.run (C.thenIgnore p C.finish) ts with
    | fail => exact (lawful.parse_fail hrun).2 (by rw [hparse])
    | ok a us recorded => exact hno a (by rw [← (lawful.parse_ok hrun).1, hparse]) rfl

end

/-- **The accepted phrases are those of the grammar.** -/
theorem readPhrase_eq_ok_iff {ts : List Token} {p : Phrase} :
    C.readPhrase ts = .ok p ↔ Denotes ts p := by
  rw [readPhrase, accept_eq_ok_iff lawful]
  constructor
  · intro h
    obtain ⟨us, hus, hchain⟩ := sound_phrase lawful (ts.length + 1) (Nat.lt_succ_self _) h
    rw [hus, List.append_nil]
    exact hchain
  · exact run_phrase_of_denotes lawful

/-! Headings -/

theorem repeats_names (rest : List Token) (ps : List String) : ∀ found : List String,
    Repeats (C.run (C.ignoreThen (C.just .comma) C.name)) (fun ps p => ps ++ [p]) found
      ((ps.flatMap fun q => [.comma, .name q]) ++ .rparen :: rest) (found ++ ps) (.rparen :: rest)
      false := by
  induction ps with
  | nil =>
    intro found
    rw [List.append_nil]
    exact .stop (run_behind_fail lawful _ (by simp))
  | cons q ps ih =>
    intro found
    have hlink : C.run (C.ignoreThen (C.just .comma) C.name)
        (((q :: ps).flatMap fun q => [.comma, .name q]) ++ .rparen :: rest)
          = .ok q ((ps.flatMap fun q => [.comma, .name q]) ++ .rparen :: rest) false := by
      rw [List.flatMap_cons, List.append_assoc, List.cons_append, run_behind lawful]
      exact run_name lawful q _
    have hmore := ih (found ++ [q])
    rw [List.append_assoc] at hmore
    refine .step hlink ?_ hmore
    simp only [List.flatMap_cons, List.length_append, List.length_cons, List.length_nil]
    omega

theorem run_parameters (ps : List String) (rest : List Token) :
    C.run C.parameters (.lparen :: (nameTokens ps ++ .rparen :: rest)) = .ok ps rest false := by
  rw [parameters, lawful.labelled]
  refine run_delimitedBy lawful ?_
  cases ps with
  | nil => exact lawful.separatedBy_fail _ (run_name_fail lawful (by simp [nameTokens]))
  | cons p ps => exact lawful.separatedBy_ok (run_name lawful p _) (repeats_names lawful rest ps [p])

theorem eq_of_repeats_names {ts us : List Token} {found ps : List String} {recorded : Bool}
    (h : Repeats (C.run (C.ignoreThen (C.just .comma) C.name)) (fun ps p => ps ++ [p]) found ts ps us
      recorded) (hrecorded : recorded = false) :
    ∃ qs, ps = found ++ qs ∧ ts = (qs.flatMap fun q => [.comma, .name q]) ++ us := by
  induction h with
  | stop => exact ⟨[], by simp, rfl⟩
  | @step _ _ q _ _ _ _ _ hlink _ _ ih =>
    obtain ⟨rfl, hrecorded⟩ := Bool.or_eq_false_iff.1 hrecorded
    obtain ⟨_, vs, hcomma, hname⟩ := exists_of_run_ignoreThen lawful hlink
    cases eq_of_run_just lawful hcomma
    cases eq_of_run_name lawful hname
    obtain ⟨qs, rfl, rfl⟩ := ih hrecorded
    exact ⟨q :: qs, by simp, by simp⟩

theorem eq_of_run_parameters {ts us : List Token} {ps : List String}
    (h : C.run C.parameters ts = .ok ps us false) :
    ts = .lparen :: (nameTokens ps ++ .rparen :: us) := by
  rw [parameters, lawful.labelled] at h
  obtain ⟨vs, rfl, hitems⟩ := exists_of_run_delimitedBy lawful h
  cases hrun : C.run C.name vs with
  | fail =>
    rw [lawful.separatedBy_fail _ hrun] at hitems
    cases hitems
    rfl
  | ok p ws recorded =>
    have htakes : Takes (C.ignoreThen (C.just .comma) C.name) :=
      takes_map lawful (takes_seq lawful (takes_just lawful _) _) _
    obtain ⟨qs, xs, recorded', more⟩ := exists_repeats htakes (fun ps p => ps ++ [p]) ws [p]
    rw [lawful.separatedBy_ok hrun more] at hitems
    simp only [Outcome.ok.injEq, Bool.or_eq_false_iff] at hitems
    obtain ⟨rfl, rfl, rfl, rfl⟩ := hitems
    obtain ⟨qs, rfl, rfl⟩ := eq_of_repeats_names lawful more rfl
    rw [eq_of_run_name lawful hrun]
    rfl

theorem run_definition_iff {ts us : List Token} {h : Heading} {body : Phrase} :
    C.run C.definition ts = .ok (h, body) us false ↔
      ∃ vs, ts = h.tokens ++ vs ∧ C.run C.phrase vs = .ok body us false := by
  constructor
  · intro hrun
    obtain ⟨vs, hhead, hbody⟩ := exists_of_run_seq lawful hrun
    obtain ⟨_, ws, hheading, hassign⟩ := exists_of_run_thenIgnore lawful hhead
    obtain ⟨⟨name, params⟩, hparts, rfl⟩ := exists_of_run_map lawful hheading
    obtain ⟨xs, hname, hparams⟩ := exists_of_run_seq lawful hparts
    refine ⟨vs, ?_, hbody⟩
    rw [eq_of_run_name lawful hname, eq_of_run_parameters lawful hparams,
      eq_of_run_just lawful hassign]
    simp [Heading.tokens]
  · rintro ⟨vs, rfl, hbody⟩
    obtain ⟨name, params⟩ := h
    have hparams := run_parameters lawful params (.assign :: vs)
    have hparts := run_seq_ok lawful (run_name lawful name _) hparams
    have hheading := run_map_ok lawful
      (fun parts : String × List String => Heading.mk parts.1 parts.2) hparts
    have hhead := run_map_ok lawful Prod.fst
      (run_seq_ok lawful hheading (run_just lawful .assign vs))
    have htokens : Heading.tokens ⟨name, params⟩ ++ vs
        = .name name :: .lparen :: (nameTokens params ++ .rparen :: .assign :: vs) := by
      simp [Heading.tokens]
    rw [htokens]
    exact run_seq_ok lawful hhead hbody

/-- **The accepted definitions are headings in front of phrases of the grammar.** -/
theorem readDefinition_eq_ok_iff {ts : List Token} {h : Heading} {body : Phrase} :
    C.readDefinition ts = .ok (h, body) ↔ ∃ us, ts = h.tokens ++ us ∧ Denotes us body := by
  rw [readDefinition, accept_eq_ok_iff lawful, run_definition_iff lawful]
  simp only [← readPhrase_eq_ok_iff lawful, readPhrase, accept_eq_ok_iff lawful]

end Combinators

end PrefixCalculus
