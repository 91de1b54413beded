import Mathlib.Data.List.Forall2
import Mathlib.Order.Nat
import PrefixCalculus.Phrase.Parsing
import PrefixCalculus.Proofs.ParserOutcomes
set_option autoImplicit false

/-!
The parser of phrases uses itself only behind a token. Two parsers that come to the same in front of
short lists are put together with others to such as come to the same, and behind a token one length
further. Main statements: the recursive parsers are what their bodies say.
-/

namespace PrefixCalculus

namespace Combinators

variable {C : Combinators} {α β γ : Type}

def Takes (p : C.Parser α) : Prop :=
  ∀ {ts us a recorded}, C.run p ts = .ok a us recorded → us.length < ts.length

theorem Agree.mono {n m : Nat} {p q : C.Parser α} (h : C.Agree n p q) (hle : m ≤ n) :
    C.Agree m p q :=
  fun ts hts => h ts (hts.trans_le hle)

theorem Agree.refl (n : Nat) (p : C.Parser α) : C.Agree n p p :=
  fun _ _ => rfl

variable (lawful : C.Lawful)
include lawful

/-! Tokens that are taken -/

theorem takes_just (t : Token) : Takes (C.just t) := by
  intro ts us a recorded h
  rw [lawful.just] at h
  split at h
  · split at h
    · cases h
      exact Nat.lt_succ_self _
    · cases h
  · cases h

theorem takes_map {p : C.Parser α} (hp : Takes p) (f : α → β) : Takes (C.map f p) := by
  intro ts us b recorded h
  rw [lawful.map] at h
  cases hrun : C.run p ts with
  | fail => rw [hrun] at h; cases h
  | ok a vs recorded' =>
    rw [hrun] at h
    cases h
    exact hp hrun

theorem takes_choice {ps : List (C.Parser α)} (h : ∀ p ∈ ps, Takes p) : Takes (C.choice ps) := by
  induction ps with
  | nil =>
    intro ts us a recorded hrun
    rw [lawful.choice_nil] at hrun
    cases hrun
  | cons p ps ih =>
    obtain ⟨hp, hps⟩ := List.forall_mem_cons.1 h
    intro ts us a recorded hrun
    rw [lawful.choice_cons] at hrun
    cases hfirst : C.run p ts with
    | fail =>
      rw [hfirst] at hrun
      exact ih hps hrun
    | ok b vs recorded' =>
      rw [hfirst] at hrun
      cases hrun
      exact hp hfirst

theorem takes_seq {p : C.Parser α} (hp : Takes p) (q : C.Parser β) : Takes (C.seq p q) := by
  intro ts us ab recorded h
  rw [lawful.seq] at h
  cases hrun : C.run p ts with
  | fail => rw [hrun] at h; cases h
  | ok a vs recorded' =>
    rw [hrun] at h
    cases hrun' : C.run q vs with
    | fail => simp only [Outcome.andThen, hrun'] at h; cases h
    | ok b ws recorded'' =>
      simp only [Outcome.andThen, hrun', Outcome.map] at h
      cases h
      exact (lawful.shorter hrun').trans_lt (hp hrun)

/-! Parsers that come to the same -/

section

variable {n : Nat} {p p' : C.Parser α} {q q' : C.Parser β}

theorem agree_map (hp : C.Agree n p p') (f : α → β) : C.Agree n (C.map f p) (C.map f p') := by
  intro ts hts
  rw [lawful.map, lawful.map, hp ts hts]

theorem agree_labelled (hp : C.Agree n p p') (label : String) :
    C.Agree n (C.labelled label p) (C.labelled label p') := by
  intro ts hts
  rw [lawful.labelled, lawful.labelled, hp ts hts]

theorem agree_orNot (hp : C.Agree n p p') : C.Agree n (C.orNot p) (C.orNot p') := by
  intro ts hts
  rw [lawful.orNot, lawful.orNot, hp ts hts]

theorem agree_recoverWith (hp : C.Agree n p p') (strategy : C.Parser α) :
    C.Agree n (C.recoverWith p strategy) (C.recoverWith p' strategy) := by
  intro ts hts
  cases hrun : C.run p' ts with
  | fail => rw [lawful.recover_fail _ hrun, lawful.recover_fail _ ((hp ts hts).trans hrun)]
  | ok a us recorded => rw [lawful.recover_ok _ hrun, lawful.recover_ok _ ((hp ts hts).trans hrun)]

theorem agree_seq (hp : C.Agree n p p') (hq : C.Agree n q q') :
    C.Agree n (C.seq p q) (C.seq p' q') := by
  intro ts hts
  rw [lawful.seq, lawful.seq, hp ts hts]
  cases hrun : C.run p' ts with
  | fail => rfl
  | ok a us recorded =>
    simp only [Outcome.andThen, hq us ((lawful.shorter hrun).trans_lt hts)]

/-- What stands behind a token may agree on one token less. -/
theorem agree_behind (hp : Takes p) (hq : C.Agree n q q') :
    C.Agree (n + 1) (C.seq p q) (C.seq p q') := by
  intro ts hts
  rw [lawful.seq, lawful.seq]
  cases hrun : C.run p ts with
  | fail => rfl
  | ok a us recorded =>
    simp only [Outcome.andThen, hq us ((hp hrun).trans_le (Nat.le_of_lt_succ hts))]

theorem agree_choice {ps ps' : List (C.Parser α)} (h : List.Forall₂ (C.Agree n) ps ps') :
    C.Agree n (C.choice ps) (C.choice ps') := by
  induction h with
  | nil => exact .refl n _
  | cons hp _ ih =>
    intro ts hts
    rw [lawful.choice_cons, lawful.choice_cons, hp ts hts, ih ts hts]

end

/-! Repetition -/

omit lawful in
theorem repeats_congr {link link' : List Token → Outcome β} {f : α → β → α} {a c : α}
    {ts us : List Token} {recorded : Bool} (h : Repeats link f a ts c us recorded)
    (same : ∀ vs, vs.length ≤ ts.length → link vs = link' vs) :
    Repeats link' f a ts c us recorded := by
  induction h with
  | stop h => exact .stop (same _ le_rfl ▸ h)
  | step h shorter _ ih =>
    exact .step (same _ le_rfl ▸ h) shorter (ih fun vs hvs => same vs (hvs.trans shorter.le))

omit lawful in
theorem exists_repeats {link : C.Parser β} (hlink : Takes link) (f : α → β → α) :
    ∀ (ts : List Token) (a : α), ∃ c us recorded, Repeats (C.run link) f a ts c us recorded := by
  intro ts
  induction hn : ts.length using Nat.strongRecOn generalizing ts with
  | ind n ih =>
    intro a
    cases hrun : C.run link ts with
    | fail => exact ⟨a, ts, false, .stop hrun⟩
    | ok b us recorded =>
      have shorter := hlink hrun
      obtain ⟨c, vs, recorded', more⟩ := ih us.length (hn ▸ shorter) us rfl (f a b)
      exact ⟨c, vs, _, .step hrun shorter more⟩

section

variable {n : Nat} {p p' : C.Parser α} (hp : C.Agree n p p')
include hp

theorem agree_foldl {link link' : C.Parser β} (hlink : C.Agree n link link') (takes : Takes link)
    (f : α → β → α) : C.Agree n (C.foldl p link f) (C.foldl p' link' f) := by
  intro ts hts
  cases hrun : C.run p ts with
  | fail => rw [lawful.foldl_fail _ _ hrun, lawful.foldl_fail _ _ ((hp ts hts).symm.trans hrun)]
  | ok a us recorded =>
    obtain ⟨c, vs, recorded', more⟩ := exists_repeats takes f us a
    have more' := repeats_congr more fun vs hvs =>
      hlink vs ((hvs.trans (lawful.shorter hrun)).trans_lt hts)
    rw [lawful.foldl_ok hrun more, lawful.foldl_ok ((hp ts hts).symm.trans hrun) more']

theorem agree_separatedBy {separator : C.Parser β} (takes : Takes separator) :
    C.Agree n (C.separatedBy p separator) (C.separatedBy p' separator) := by
  intro ts hts
  have hitem : C.Agree n (C.ignoreThen separator p) (C.ignoreThen separator p') :=
    agree_map lawful (agree_seq lawful (.refl n _) hp) _
  have htakes : Takes (C.ignoreThen separator p) := takes_map lawful (takes_seq lawful takes p) _
  cases hrun : C.run p ts with
  | fail =>
    rw [lawful.separatedBy_fail _ hrun, lawful.separatedBy_fail _ ((hp ts hts).symm.trans hrun)]
  | ok a us recorded =>
    obtain ⟨c, vs, recorded', more⟩ := exists_repeats htakes (fun as a => as ++ [a]) us [a]
    have more' := repeats_congr more fun vs hvs =>
      hitem vs ((hvs.trans (lawful.shorter hrun)).trans_lt hts)
    rw [lawful.separatedBy_ok hrun more, lawful.separatedBy_ok ((hp ts hts).symm.trans hrun) more']

end

/-! Recursion -/

theorem agree_recursive {n : Nat} {f g : C.Parser α → C.Parser α} (hf : C.Guarded f)
    (hg : C.Guarded g) (h : ∀ m < n, ∀ p q, C.Agree m p q → C.Agree (m + 1) (f p) (g q)) :
    ∀ m ≤ n, C.Agree m (C.recursive f) (C.recursive g) := by
  intro m
  induction m with
  | zero => exact fun _ ts hts => absurd hts (Nat.not_lt_zero _)
  | succ m ih =>
    intro hm ts hts
    rw [lawful.recursive hf, lawful.recursive hg]
    exact h m hm _ _ (ih (Nat.le_of_succ_le hm)) ts hts

theorem agree_delimitedBy {n : Nat} {p p' : C.Parser α} (hp : C.Agree n p p') (start stop : Token) :
    C.Agree (n + 1) (C.delimitedBy p start stop) (C.delimitedBy p' start stop) :=
  agree_map lawful (agree_behind lawful (takes_just lawful start)
    (agree_map lawful (agree_seq lawful hp (.refl n _)) _)) _

/-! The parsers of phrases -/

theorem agree_atom {n : Nat} {phrase phrase' : C.Parser Phrase} (h : C.Agree n phrase phrase') :
    C.Agree (n + 1) (C.atom phrase) (C.atom phrase') := by
  have harguments : C.Agree (n + 1) (C.arguments phrase) (C.arguments phrase') :=
    agree_labelled lawful (agree_delimitedBy lawful
      (agree_separatedBy lawful h (takes_just lawful _)) _ _) _
  have hgroup : C.Agree (n + 1) (C.group phrase) (C.group phrase') :=
    agree_labelled lawful (agree_recoverWith lawful (agree_delimitedBy lawful h _ _) _) _
  refine agree_labelled lawful (agree_choice lawful (.cons (.refl _ _) (.cons ?_
    (.cons hgroup .nil)))) _
  exact agree_map lawful (agree_seq lawful (.refl _ _) (agree_orNot lawful harguments)) _

theorem agree_prefixedBody {n : Nat} {atom atom' prefixed prefixed' : C.Parser Phrase}
    (hatom : C.Agree (n + 1) atom atom') (h : C.Agree n prefixed prefixed') :
    C.Agree (n + 1) (C.prefixedBody atom prefixed) (C.prefixedBody atom' prefixed') := by
  have hsigns : Takes (C.choice [C.mapConst Phrase.neg (C.just (.sign .sub)),
      C.mapConst Phrase.not (C.just .bang)]) := by
    refine takes_choice lawful ?_
    simp only [List.forall_mem_cons, List.not_mem_nil, false_imp_iff, implies_true, and_true]
    exact ⟨takes_map lawful (takes_just lawful _) _, takes_map lawful (takes_just lawful _) _⟩
  have hexponent : C.Agree (n + 1) (C.ignoreThen (C.just (.sign .power)) prefixed)
      (C.ignoreThen (C.just (.sign .power)) prefixed') :=
    agree_map lawful (agree_behind lawful (takes_just lawful _) h) _
  refine agree_choice lawful (.cons ?_ (.cons ?_ .nil))
  · exact agree_map lawful (agree_behind lawful hsigns h) _
  · exact agree_map lawful (agree_seq lawful hatom (agree_orNot lawful hexponent)) _

theorem guarded_prefixedBody (atom : C.Parser Phrase) : C.Guarded (C.prefixedBody atom) :=
  fun n _ _ h => agree_prefixedBody lawful (.refl (n + 1) atom) h

theorem agree_prefixed {n : Nat} {atom atom' : C.Parser Phrase} (h : C.Agree n atom atom') :
    C.Agree n (C.prefixed atom) (C.prefixed atom') :=
  agree_recursive lawful (guarded_prefixedBody lawful atom) (guarded_prefixedBody lawful atom')
    (fun _ hm _ _ hp => agree_prefixedBody lawful (h.mono hm) hp) n le_rfl

theorem takes_signs (ops : List BinaryOp) : Takes (C.choice (ops.map C.sign)) := by
  refine takes_choice lawful fun p hp => ?_
  obtain ⟨op, -, rfl⟩ := List.mem_map.1 hp
  exact takes_map lawful (takes_just lawful _) _

theorem agree_chain {n : Nat} {prefixed prefixed' : C.Parser Phrase}
    (h : C.Agree n prefixed prefixed') (layers : List (List BinaryOp)) :
    C.Agree n (C.chain prefixed layers) (C.chain prefixed' layers) := by
  induction layers with
  | nil => exact h
  | cons ops tighter ih =>
    exact agree_foldl lawful ih (agree_seq lawful (.refl n _) ih)
      (takes_seq lawful (takes_signs lawful ops) _) _

theorem guarded_phraseBody : C.Guarded C.phraseBody :=
  fun _ _ _ h => agree_labelled lawful (agree_chain lawful
    (agree_prefixed lawful (agree_atom lawful h)) _) _

/-- **The parser of prefix phrases is what its body says.** -/
theorem run_prefixed (atom : C.Parser Phrase) :
    C.run (C.prefixed atom) = C.run (C.prefixedBody atom (C.prefixed atom)) :=
  lawful.recursive (guarded_prefixedBody lawful atom)

theorem run_phrase :
    C.run C.phrase = C.run (C.chain (C.prefixed (C.atom C.phrase)) Phrase.levels) :=
  (lawful.recursive (guarded_phraseBody lawful)).trans (lawful.labelled _ _)

end Combinators

end PrefixCalculus
