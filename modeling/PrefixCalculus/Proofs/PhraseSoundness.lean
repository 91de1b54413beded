import PrefixCalculus.Phrase.Grammar
import PrefixCalculus.Proofs.GuardedParsers
set_option autoImplicit false

/-!
The parsers of phrases take nothing but phrases of the grammar, unless they record something: what a
parser takes off the front stands there as the grammar derives it, and the tokens behind it are left.
Main statement: this holds for the parser of phrases in front of any tokens.
-/

namespace PrefixCalculus

open Phrase

def Splits (ts : List Token) (P : List Token → Prop) (rest : List Token) : Prop :=
  ∃ us, ts = us ++ rest ∧ P us

theorem Splits.imp {ts rest : List Token} {P Q : List Token → Prop} (h : ∀ us, P us → Q us) :
    Splits ts P rest → Splits ts Q rest := by
  rintro ⟨us, rfl, hus⟩
  exact ⟨us, rfl, h us hus⟩

theorem Splits.cons {t : Token} {ts rest : List Token} {P Q : List Token → Prop}
    (h : ∀ us, P us → Q (t :: us)) : Splits ts P rest → Splits (t :: ts) Q rest := by
  rintro ⟨us, rfl, hus⟩
  exact ⟨t :: us, rfl, h us hus⟩

theorem Splits.length_le {ts rest : List Token} {P : List Token → Prop} (h : Splits ts P rest) :
    rest.length ≤ ts.length := by
  obtain ⟨us, rfl, -⟩ := h
  rw [List.length_append]
  exact Nat.le_add_left _ _

theorem Phrase.IsArgs.snoc {us : List Token} {p : Phrase} (hp : IsChain levels us p) :
    ∀ {ts : List Token} {ps : List Phrase}, IsArgs ts ps → IsArgs (ts ++ .comma :: us) (ps ++ [p])
  | _, _, .one h => .more h (.one hp)
  | _, _, .more h hs => by
    have hrest := IsArgs.more h (hs.snoc hp)
    rwa [← List.cons_append, ← List.append_assoc] at hrest

namespace Combinators

variable {C : Combinators} {α β : Type}

/-- In front of fewer than so many tokens, the parser takes what has the property. -/
def Sound (n : ℕ) (p : C.Parser α) (P : List Token → α → Prop) : Prop :=
  ∀ {ts us : List Token} {a : α}, ts.length < n → C.run p ts = .ok a us false →
    Splits ts (P · a) us

variable (lawful : C.Lawful) {n : ℕ}
include lawful

/-! Tokens -/

theorem eq_of_run_number {p : Phrase} {ts us : List Token} {recorded : Bool}
    (h : C.run C.number ts = .ok p us recorded) : ∃ x, ts = .number x :: us ∧ p = .number x := by
  rw [number, lawful.labelled, lawful.select] at h
  split at h
  · rename_i t ts
    cases t with
    | number x =>
      cases h
      exact ⟨x, rfl, rfl⟩
    | _ => cases h
  · cases h

theorem eq_of_run_name {s : String} {ts us : List Token} {recorded : Bool}
    (h : C.run C.name ts = .ok s us recorded) : ts = .name s :: us := by
  rw [name, lawful.labelled, lawful.select] at h
  split at h
  · rename_i t ts
    cases t with
    | name s =>
      cases h
      rfl
    | _ => cases h
  · cases h

theorem eq_of_run_signs {ops : List BinaryOp} {op : BinaryOp} {ts us : List Token} {recorded : Bool}
    (h : C.run (C.choice (ops.map C.sign)) ts = .ok op us recorded) :
    op ∈ ops ∧ ts = .sign op :: us := by
  obtain ⟨p, hp, hrun⟩ := exists_of_run_choice lawful h
  obtain ⟨op', hop, rfl⟩ := List.mem_map.1 hp
  obtain ⟨t, ht, rfl⟩ := exists_of_run_map lawful hrun
  exact ⟨hop, eq_of_run_just lawful ht⟩

/-! Atoms -/

section

variable {phrase : C.Parser Phrase} (sound : Sound n phrase (IsChain levels))
include sound

theorem splits_of_repeats_arguments {ts us front : List Token} {ps qs : List Phrase}
    {recorded : Bool} (hn : ts.length < n) (hfront : IsArgs front ps)
    (h : Repeats (C.run (C.ignoreThen (C.just .comma) phrase)) (fun ps p => ps ++ [p]) ps ts qs us
      recorded) (hrecorded : recorded = false) : Splits ts (fun vs => IsArgs (front ++ vs) qs) us := by
  induction h generalizing front with
  | stop =>
    rw [← List.append_nil front] at hfront
    exact ⟨[], rfl, hfront⟩
  | step hlink shorter _ ih =>
    obtain ⟨rfl, hrecorded⟩ := Bool.or_eq_false_iff.1 hrecorded
    obtain ⟨_, vs, hcomma, hphrase⟩ := exists_of_run_ignoreThen lawful hlink
    cases eq_of_run_just lawful hcomma
    obtain ⟨ws, rfl, hws⟩ := sound (Nat.lt_of_succ_lt hn) hphrase
    obtain ⟨xs, rfl, hxs⟩ := ih (shorter.trans hn) (hfront.snoc hws) hrecorded
    refine ⟨.comma :: (ws ++ xs), by rw [List.cons_append, List.append_assoc], ?_⟩
    rwa [List.append_assoc, List.cons_append] at hxs

theorem sound_arguments : Sound (n + 1) (C.arguments phrase) fun ts ps =>
    ts = [.lparen, .rparen] ∧ ps = [] ∨ ∃ us, ts = .lparen :: (us ++ [.rparen]) ∧ IsArgs us ps := by
  intro ts us ps hn h
  rw [arguments, lawful.labelled] at h
  obtain ⟨vs, rfl, hitems⟩ := exists_of_run_delimitedBy lawful h
  have hvs : vs.length < n := Nat.lt_of_succ_lt_succ hn
  cases hrun : C.run phrase vs with
  | fail =>
    rw [lawful.separatedBy_fail _ hrun] at hitems
    cases hitems
    exact ⟨[.lparen, .rparen], rfl, .inl ⟨rfl, rfl⟩⟩
  | ok p ws recorded =>
    have htakes : Takes (C.ignoreThen (C.just .comma) phrase) :=
      takes_map lawful (takes_seq lawful (takes_just lawful _) _) _
    obtain ⟨qs, xs, recorded', more⟩ := exists_repeats htakes (fun ps p => ps ++ [p]) ws [p]
    rw [lawful.separatedBy_ok hrun more] at hitems
    simp only [Outcome.ok.injEq, Bool.or_eq_false_iff] at hitems
    obtain ⟨rfl, rfl, rfl, rfl⟩ := hitems
    obtain ⟨first, rfl, hfirst⟩ := sound hvs hrun
    have hws : ws.length < n := (lawful.shorter hrun).trans_lt hvs
    obtain ⟨rest, rfl, hrest⟩ := splits_of_repeats_arguments lawful sound hws (.one hfirst) more rfl
    exact ⟨.lparen :: (first ++ rest ++ [.rparen]), by simp, .inr ⟨_, rfl, hrest⟩⟩

theorem sound_group : Sound (n + 1) (C.group phrase) IsAtom := by
  intro ts us p hn h
  rw [group, lawful.labelled] at h
  cases hrun : C.run (C.delimitedBy phrase .lparen .rparen) ts with
  | fail =>
    -- what goes on where the group fails has recorded it
    rw [lawful.recover_fail _ hrun] at h
    split at h <;> cases h
  | ok q vs recorded =>
    rw [lawful.recover_ok _ hrun] at h
    cases h
    obtain ⟨vs, rfl, hphrase⟩ := exists_of_run_delimitedBy lawful hrun
    obtain ⟨ws, rfl, hws⟩ := sound (Nat.lt_of_succ_lt_succ hn) hphrase
    exact ⟨.lparen :: (ws ++ [.rparen]), by simp, .group hws⟩

theorem sound_call : Sound (n + 2) (C.map named (C.seq C.name (C.orNot (C.arguments phrase))))
    IsAtom := by
  intro ts us p hn h
  obtain ⟨⟨s, args?⟩, hseq, rfl⟩ := exists_of_run_map lawful h
  obtain ⟨vs, hname, hargs?⟩ := exists_of_run_seq lawful hseq
  cases eq_of_run_name lawful hname
  rcases cases_of_run_orNot lawful hargs? with ⟨args, rfl, hargs⟩ | ⟨rfl, rfl⟩
  · refine Splits.cons ?_ (sound_arguments lawful sound (Nat.lt_of_succ_lt_succ hn) hargs)
    rintro _ (⟨rfl, rfl⟩ | ⟨ws, rfl, hws⟩)
    · exact .noArgs s
    · exact .call s hws
  · exact ⟨[.name s], rfl, .name s⟩

theorem sound_atom : Sound (n + 1) (C.atom phrase) IsAtom := by
  intro ts us p hn h
  rw [atom, lawful.labelled] at h
  obtain ⟨q, hq, hrun⟩ := exists_of_run_choice lawful h
  simp only [List.mem_cons, List.not_mem_nil, or_false] at hq
  rcases hq with rfl | rfl | rfl
  · obtain ⟨x, rfl, rfl⟩ := eq_of_run_number lawful hrun
    exact ⟨[.number x], rfl, .number x⟩
  · exact sound_call lawful sound (hn.trans (Nat.lt_succ_self _)) hrun
  · exact sound_group lawful sound hn hrun

end

/-! Prefix phrases and powers -/

theorem sound_prefixed {atom : C.Parser Phrase} (sound : Sound n atom IsAtom) :
    Sound n (C.prefixed atom) IsPrefixed := by
  intro ts
  -- on the number of tokens: behind a sign and behind a power sign stands a prefix phrase again
  induction hlength : ts.length using Nat.strongRecOn generalizing ts with
  | ind length ih =>
    subst hlength
    intro us p hn h
    have shorter {vs ws : List Token} {q : Phrase} (hlt : vs.length < ts.length)
        (hq : C.run (C.prefixed atom) vs = .ok q ws false) : Splits vs (IsPrefixed · q) ws :=
      ih vs.length hlt rfl (hlt.trans hn) hq
    rw [run_prefixed lawful, prefixedBody] at h
    obtain ⟨q, hq, hrun⟩ := exists_of_run_choice lawful h
    simp only [List.mem_cons, List.not_mem_nil, or_false] at hq
    rcases hq with rfl | rfl
    · obtain ⟨⟨make, operand⟩, hseq, rfl⟩ := exists_of_run_map lawful hrun
      obtain ⟨vs, hsigns, hoperand⟩ := exists_of_run_seq lawful hseq
      obtain ⟨q, hq, hsign⟩ := exists_of_run_choice lawful hsigns
      simp only [List.mem_cons, List.not_mem_nil, or_false] at hq
      rcases hq with rfl | rfl
      · obtain ⟨_, htoken, rfl⟩ := exists_of_run_map lawful hsign
        cases eq_of_run_just lawful htoken
        exact (shorter (Nat.lt_succ_self _) hoperand).cons fun _ => .neg
      · obtain ⟨_, htoken, rfl⟩ := exists_of_run_map lawful hsign
        cases eq_of_run_just lawful htoken
        exact (shorter (Nat.lt_succ_self _) hoperand).cons fun _ => .not
    · obtain ⟨⟨base, exponent?⟩, hseq, rfl⟩ := exists_of_run_map lawful hrun
      obtain ⟨vs, hbase, hexponent?⟩ := exists_of_run_seq lawful hseq
      obtain ⟨front, rfl, hfront⟩ := sound hn hbase
      rcases cases_of_run_orNot lawful hexponent? with ⟨exponent, rfl, hpower⟩ | ⟨rfl, rfl⟩
      · obtain ⟨_, ws, hcaret, hexponent⟩ := exists_of_run_ignoreThen lawful hpower
        cases eq_of_run_just lawful hcaret
        have hws : ws.length < (front ++ .sign .power :: ws).length := by
          rw [List.length_append, List.length_cons]
          omega
        obtain ⟨xs, rfl, hxs⟩ := shorter hws hexponent
        exact ⟨front ++ .sign .power :: xs, by simp, .power (.raised hfront hxs)⟩
      · exact ⟨front, rfl, .power (.atom hfront)⟩

/-! Chains -/

theorem splits_of_links {prefixed : C.Parser Phrase} {ops : List BinaryOp} {tighter : List (List BinaryOp)}
    (operand : Sound n (C.chain prefixed tighter) (IsChain tighter)) {ts us front : List Token}
    {p q : Phrase} {recorded : Bool} (hn : ts.length < n) (hfront : IsChain (ops :: tighter) front p)
    (h : Repeats (C.run (C.seq (C.choice (ops.map C.sign)) (C.chain prefixed tighter)))
      infixed p ts q us recorded) (hrecorded : recorded = false) :
    Splits ts (fun vs => IsChain (ops :: tighter) (front ++ vs) q) us := by
  induction h generalizing front with
  | stop =>
    rw [← List.append_nil front] at hfront
    exact ⟨[], rfl, hfront⟩
  | @step _ _ link _ _ _ _ _ hlink shorter _ ih =>
    obtain ⟨rfl, hrecorded⟩ := Bool.or_eq_false_iff.1 hrecorded
    obtain ⟨op, q⟩ := link
    obtain ⟨vs, hsign, hoperand⟩ := exists_of_run_seq lawful hlink
    obtain ⟨hop, rfl⟩ := eq_of_run_signs lawful hsign
    obtain ⟨ws, rfl, hws⟩ := operand (Nat.lt_of_succ_lt hn) hoperand
    obtain ⟨xs, rfl, hxs⟩ := ih (shorter.trans hn) (.join hop hfront hws) hrecorded
    refine ⟨.sign op :: (ws ++ xs), by rw [List.cons_append, List.append_assoc], ?_⟩
    rwa [List.append_assoc, List.cons_append] at hxs

theorem sound_chain {prefixed : C.Parser Phrase} (sound : Sound n prefixed IsPrefixed)
    (layers : List (List BinaryOp)) : Sound n (C.chain prefixed layers) (IsChain layers) := by
  induction layers with
  | nil =>
    intro ts us p hn h
    exact (sound hn h).imp fun _ => .tightest
  | cons ops tighter ih =>
    intro ts us p hn h
    rw [chain] at h
    cases hrun : C.run (C.chain prefixed tighter) ts with
    | fail =>
      rw [lawful.foldl_fail _ _ hrun] at h
      cases h
    | ok q vs recorded =>
      obtain ⟨_, ws, recorded', more⟩ := exists_repeats
        (takes_seq lawful (takes_signs lawful ops) (C.chain prefixed tighter)) infixed vs q
      rw [lawful.foldl_ok hrun more] at h
      simp only [Outcome.ok.injEq, Bool.or_eq_false_iff] at h
      obtain ⟨rfl, rfl, rfl, rfl⟩ := h
      obtain ⟨front, rfl, hfront⟩ := ih hn hrun
      have hvs : vs.length < n := (lawful.shorter hrun).trans_lt hn
      obtain ⟨rest, rfl, hrest⟩ := splits_of_links lawful ih hvs (.single hfront) more rfl
      exact ⟨front ++ rest, (List.append_assoc _ _ _).symm, hrest⟩

/-- In front of any tokens, the parser of phrases takes a phrase off the front or records something. -/
theorem sound_phrase (n : ℕ) : Sound n C.phrase (IsChain levels) := by
  induction n with
  | zero => exact fun hn => absurd hn (Nat.not_lt_zero _)
  | succ n ih =>
    intro ts us p hn h
    rw [run_phrase lawful] at h
    exact sound_chain lawful (sound_prefixed lawful (sound_atom lawful ih)) levels hn h

end Combinators

end PrefixCalculus
