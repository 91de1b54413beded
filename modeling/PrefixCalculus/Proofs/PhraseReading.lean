import Mathlib.Data.List.Infix
import PrefixCalculus.Phrase.Grammar
import PrefixCalculus.Proofs.GuardedParsers
set_option autoImplicit false

/-!
The parsers of phrases take every phrase of the grammar and record nothing. A parser goes as far as it
can, so what stands behind the phrase must not go on with it. Main statement: the parser of phrases
takes tokens that denote a phrase as it.
-/

namespace PrefixCalculus

namespace Phrase

/-! What a phrase begins with, and what ends it -/

def BeginsAtom (ts : List Token) : Prop :=
  ∃ t us, ts = t :: us ∧ ((∃ x, t = .number x) ∨ (∃ s, t = .name s) ∨ t = .lparen)

def Begins (ts : List Token) : Prop :=
  BeginsAtom ts ∨ ∃ us, ts = .sign .sub :: us ∨ ts = .bang :: us

/-- What follows is no sign of the layers, no power and no bracket of arguments. -/
def Stops (layers : List (List BinaryOp)) (rest : List Token) : Prop :=
  ∀ t, rest.head? = some t →
    t ≠ .lparen ∧ t ≠ .sign .power ∧ ∀ ops ∈ layers, ∀ op ∈ ops, t ≠ .sign op

theorem Begins.length_pos {ts : List Token} (h : Begins ts) : 0 < ts.length := by
  rcases h with ⟨t, us, rfl, -⟩ | ⟨us, rfl | rfl⟩ <;> simp

theorem BeginsAtom.append {ts : List Token} (h : BeginsAtom ts) (us : List Token) :
    BeginsAtom (ts ++ us) := by
  obtain ⟨t, ts', rfl, ht⟩ := h
  exact ⟨t, ts' ++ us, rfl, ht⟩

theorem BeginsAtom.not_sign {ts : List Token} (h : BeginsAtom ts) :
    ts.head? ≠ some (.sign .sub) ∧ ts.head? ≠ some .bang := by
  obtain ⟨t, us, rfl, ⟨x, rfl⟩ | ⟨s, rfl⟩ | rfl⟩ := h <;> simp

theorem Begins.append {ts : List Token} (h : Begins ts) (us : List Token) : Begins (ts ++ us) := by
  rcases h with h | ⟨ts', rfl | rfl⟩
  · exact .inl (h.append us)
  · exact .inr ⟨ts' ++ us, .inl rfl⟩
  · exact .inr ⟨ts' ++ us, .inr rfl⟩

theorem Stops.tail {ops : List BinaryOp} {tighter : List (List BinaryOp)} {rest : List Token}
    (h : Stops (ops :: tighter) rest) : Stops tighter rest := by
  intro t ht
  obtain ⟨hp, hpow, hops⟩ := h t ht
  exact ⟨hp, hpow, fun ops' h' => hops ops' (by simp [h'])⟩

theorem Stops.nil {layers : List (List BinaryOp)} {rest : List Token} (h : Stops layers rest) :
    Stops [] rest := by
  intro t ht
  obtain ⟨hp, hpow, -⟩ := h t ht
  exact ⟨hp, hpow, by simp⟩

theorem stops_of_head {layers : List (List BinaryOp)} {t : Token} {rest : List Token}
    (ht : t = .comma ∨ t = .rparen) : Stops layers (t :: rest) := by
  intro u hu
  cases hu
  rcases ht with rfl | rfl <;> simp

theorem stops_end (layers : List (List BinaryOp)) : Stops layers [] := by
  intro t ht
  cases ht

theorem stops_sign {ops : List BinaryOp} {tighter : List (List BinaryOp)} {op : BinaryOp}
    {rest : List Token} (hlv : ops :: tighter <:+ levels) (hop : op ∈ ops) :
    Stops tighter (.sign op :: rest) := by
  have apart : ∀ lv ∈ levels.tails, ∀ op ∈ lv.headD [],
      op ≠ .power ∧ ∀ ops' ∈ lv.tail, op ∉ ops' := by decide
  obtain ⟨hpow, hothers⟩ := apart _ ((List.mem_tails _ _).2 hlv) op hop
  intro t ht
  cases ht
  refine ⟨by simp, by simpa using hpow, ?_⟩
  intro ops' h' op' hop'
  simp only [ne_eq, Token.sign.injEq]
  rintro rfl
  exact hothers ops' h' hop'

end Phrase

namespace Combinators

open Phrase

variable {C : Combinators} {α β : Type} (lawful : C.Lawful)
include lawful

/-! Tokens -/

theorem run_signs {ops : List BinaryOp} {op : BinaryOp} (hop : op ∈ ops) (ts : List Token) :
    C.run (C.choice (ops.map C.sign)) (.sign op :: ts) = .ok op ts false := by
  induction ops with
  | nil => cases hop
  | cons first ops ih =>
    by_cases heq : op = first
    · subst heq
      exact run_choice_first lawful _ (run_map_ok lawful _ (run_just lawful (.sign op) ts))
    · have hfirst : C.run (C.sign first) (.sign op :: ts) = .fail :=
        run_map_fail lawful _ (run_just_fail lawful (by simpa using heq))
      rw [List.map_cons, run_choice_next lawful hfirst]
      exact ih (List.mem_of_ne_of_mem heq hop)

theorem run_signs_fail {ops : List BinaryOp} {ts : List Token}
    (h : ∀ op ∈ ops, ts.head? ≠ some (.sign op)) : C.run (C.choice (ops.map C.sign)) ts = .fail := by
  induction ops with
  | nil => exact lawful.choice_nil ts
  | cons first ops ih =>
    obtain ⟨hfirst, hrest⟩ := List.forall_mem_cons.1 h
    have hsign : C.run (C.sign first) ts = .fail :=
      run_map_fail lawful _ (run_just_fail lawful hfirst)
    rw [List.map_cons, run_choice_next lawful hsign]
    exact ih hrest

theorem run_number (x : Float) (ts : List Token) :
    C.run C.number (.number x :: ts) = .ok (.number x) ts false := by
  rw [number, lawful.labelled, lawful.select]

theorem run_name (s : String) (ts : List Token) : C.run C.name (.name s :: ts) = .ok s ts false := by
  rw [name, lawful.labelled, lawful.select]

theorem run_number_fail {ts : List Token} (h : ∀ x, ts.head? ≠ some (.number x)) :
    C.run C.number ts = .fail := by
  rw [number, lawful.labelled, lawful.select]
  cases ts with
  | nil => rfl
  | cons t ts =>
    cases t with
    | number x => exact absurd rfl (h x)
    | _ => rfl

theorem run_name_fail {ts : List Token} (h : ∀ s, ts.head? ≠ some (.name s)) :
    C.run C.name ts = .fail := by
  rw [name, lawful.labelled, lawful.select]
  cases ts with
  | nil => rfl
  | cons t ts =>
    cases t with
    | name s => exact absurd rfl (h s)
    | _ => rfl

end Combinators

/-! What the parsers do on tokens of the grammar -/

namespace Phrase

section

variable (C : Combinators)

def ReadsAtom (ts : List Token) (p : Phrase) : Prop :=
  BeginsAtom ts ∧ ∀ rest, rest.head? ≠ some .lparen →
    C.run (C.atom C.phrase) (ts ++ rest) = .ok p rest false

def ReadsPower (ts : List Token) (p : Phrase) : Prop :=
  BeginsAtom ts ∧ ∀ rest, Stops [] rest →
    C.run (C.power (C.atom C.phrase) (C.prefixed (C.atom C.phrase))) (ts ++ rest) = .ok p rest false

def ReadsPrefixed (ts : List Token) (p : Phrase) : Prop :=
  Begins ts ∧ ∀ rest, Stops [] rest →
    C.run (C.prefixed (C.atom C.phrase)) (ts ++ rest) = .ok p rest false

def LinksTo (ops : List BinaryOp) (tighter : List (List BinaryOp)) :
    Phrase → List Token → Phrase → List Token → Bool → Prop :=
  Repeats (C.run (C.seq (C.choice (ops.map C.sign)) (C.chain (C.prefixed (C.atom C.phrase)) tighter)))
    Combinators.infixed

/-- The chain is read up to its end, where more links may go on with it. -/
def ReadsOpen (ops : List BinaryOp) (tighter : List (List BinaryOp)) (ts : List Token)
    (p : Phrase) : Prop :=
  ∀ rest, Stops tighter rest → ∃ q mid,
    C.run (C.chain (C.prefixed (C.atom C.phrase)) tighter) (ts ++ rest) = .ok q mid false ∧
    ∀ {r us}, LinksTo C ops tighter p rest r us false → LinksTo C ops tighter q mid r us false

def ReadsChain (layers : List (List BinaryOp)) (ts : List Token) (p : Phrase) : Prop :=
  Begins ts ∧ (layers <:+ levels →
    (∀ ops tighter, layers = ops :: tighter → ReadsOpen C ops tighter ts p) ∧
    ∀ rest, Stops layers rest →
      C.run (C.chain (C.prefixed (C.atom C.phrase)) layers) (ts ++ rest) = .ok p rest false)

def ItemsTo : List Phrase → List Token → List Phrase → List Token → Bool → Prop :=
  Repeats (C.run (C.ignoreThen (C.just .comma) C.phrase)) fun ps p => ps ++ [p]

def ReadsArgs (ts : List Token) (ps : List Phrase) : Prop :=
  Begins ts ∧ ∀ rest, ∃ p mid, C.run C.phrase (ts ++ .rparen :: rest) = .ok p mid false ∧
    ItemsTo C [p] mid ps (.rparen :: rest) false

end

open Combinators

variable {C : Combinators}

theorem ItemsTo.append {ps qs : List Phrase} {ts us : List Token} {recorded : Bool}
    (h : ItemsTo C ps ts qs us recorded) (front : List Phrase) :
    ItemsTo C (front ++ ps) ts (front ++ qs) us recorded := by
  induction h with
  | stop hlink => exact .stop hlink
  | step hlink shorter _ ih =>
    rw [← List.append_assoc] at ih
    exact .step hlink shorter ih

variable (lawful : C.Lawful)
include lawful

theorem links_end {ops : List BinaryOp} {tighter : List (List BinaryOp)} {rest : List Token}
    (h : Stops (ops :: tighter) rest) (p : Phrase) : LinksTo C ops tighter p rest p rest false := by
  refine .stop (run_seq_fail lawful _ (run_signs_fail lawful fun op hop hhead => ?_))
  exact (h _ hhead).2.2 ops List.mem_cons_self op hop rfl

theorem readsChain_of_open {ops : List BinaryOp} {tighter : List (List BinaryOp)} {ts : List Token}
    {p : Phrase} (hb : Begins ts) (h : ops :: tighter <:+ levels → ReadsOpen C ops tighter ts p) :
    ReadsChain C (ops :: tighter) ts p := by
  refine ⟨hb, fun hlv => ⟨?_, ?_⟩⟩
  · rintro _ _ ⟨⟩
    exact h hlv
  · intro rest hstops
    obtain ⟨q, mid, hrun, hmore⟩ := h hlv rest hstops.tail
    exact lawful.foldl_ok hrun (hmore (links_end lawful hstops p))

omit lawful in
theorem reads_tightest {ts : List Token} {p : Phrase} (h : ReadsPrefixed C ts p) :
    ReadsChain C [] ts p :=
  ⟨h.1, fun _ => ⟨by simp, h.2⟩⟩

theorem reads_single {ops : List BinaryOp} {tighter : List (List BinaryOp)} {ts : List Token}
    {p : Phrase} (h : ReadsChain C tighter ts p) : ReadsChain C (ops :: tighter) ts p := by
  obtain ⟨hb, hread⟩ := h
  refine readsChain_of_open lawful hb fun hlv rest hstops => ?_
  exact ⟨p, rest, (hread ((List.suffix_cons _ _).trans hlv)).2 rest hstops, fun h => h⟩

theorem reads_join {ops : List BinaryOp} {tighter : List (List BinaryOp)} {ts us : List Token}
    {p q : Phrase} {op : BinaryOp} (hop : op ∈ ops) (hp : ReadsChain C (ops :: tighter) ts p)
    (hq : ReadsChain C tighter us q) :
    ReadsChain C (ops :: tighter) (ts ++ .sign op :: us) (.binary op p q) := by
  obtain ⟨hbp, hp⟩ := hp
  obtain ⟨hbq, hq⟩ := hq
  refine readsChain_of_open lawful (hbp.append _) fun hlv rest hstops => ?_
  obtain ⟨first, mid, hfirst, hmore⟩ := (hp hlv).1 _ _ rfl (.sign op :: (us ++ rest))
    (stops_sign hlv hop)
  have hrhs := (hq ((List.suffix_cons _ _).trans hlv)).2 rest hstops
  refine ⟨first, mid, by rwa [List.append_assoc, List.cons_append], fun hlinks => hmore ?_⟩
  have shorter : rest.length < (Token.sign op :: (us ++ rest)).length := by
    rw [List.length_cons, List.length_append]
    omega
  exact .step (run_seq_ok lawful (run_signs lawful hop _) hrhs) shorter hlinks

theorem reads_neg {ts : List Token} {p : Phrase} (h : ReadsPrefixed C ts p) :
    ReadsPrefixed C (.sign .sub :: ts) (.neg p) := by
  refine ⟨.inr ⟨ts, .inl rfl⟩, fun rest hstops => ?_⟩
  rw [run_prefixed lawful]
  refine run_choice_first lawful _ (run_map_ok lawful _ (run_seq_ok lawful ?_ (h.2 rest hstops)))
  exact run_choice_first lawful _ (run_map_ok lawful _ (run_just lawful _ _))

theorem reads_not {ts : List Token} {p : Phrase} (h : ReadsPrefixed C ts p) :
    ReadsPrefixed C (.bang :: ts) (.not p) := by
  refine ⟨.inr ⟨ts, .inr rfl⟩, fun rest hstops => ?_⟩
  have hminus : C.run (C.mapConst Phrase.neg (C.just (.sign .sub))) (.bang :: (ts ++ rest)) = .fail :=
    run_map_fail lawful _ (run_just_fail lawful (by simp))
  rw [run_prefixed lawful]
  refine run_choice_first lawful _ (run_map_ok lawful _ (run_seq_ok lawful ?_ (h.2 rest hstops)))
  rw [List.cons_append, run_choice_next lawful hminus]
  exact run_choice_first lawful _ (run_map_ok lawful _ (run_just lawful _ _))

theorem run_signed_fail {ts : List Token} (hminus : ts.head? ≠ some (.sign .sub))
    (hbang : ts.head? ≠ some .bang) (prefixed : C.Parser Phrase) :
    C.run (C.signed prefixed) ts = .fail := by
  have hneg : C.run (C.mapConst Phrase.neg (C.just (.sign .sub))) ts = .fail :=
    run_map_fail lawful _ (run_just_fail lawful hminus)
  have hnot : C.run (C.mapConst Phrase.not (C.just .bang)) ts = .fail :=
    run_map_fail lawful _ (run_just_fail lawful hbang)
  refine run_map_fail lawful _ (run_seq_fail lawful _ ?_)
  rw [run_choice_next lawful hneg, run_choice_next lawful hnot, lawful.choice_nil]

theorem reads_power {ts : List Token} {p : Phrase} (h : ReadsPower C ts p) :
    ReadsPrefixed C ts p := by
  obtain ⟨hb, hread⟩ := h
  refine ⟨.inl hb, fun rest hstops => ?_⟩
  obtain ⟨hminus, hbang⟩ := (hb.append rest).not_sign
  rw [run_prefixed lawful, prefixedBody, run_choice_next lawful (run_signed_fail lawful hminus hbang _)]
  exact run_choice_first lawful _ (hread rest hstops)

theorem reads_atom {ts : List Token} {p : Phrase} (h : ReadsAtom C ts p) : ReadsPower C ts p := by
  obtain ⟨hb, hread⟩ := h
  refine ⟨hb, fun rest hstops => ?_⟩
  have hparen : rest.head? ≠ some .lparen := fun ht => (hstops _ ht).1 rfl
  have hcaret : rest.head? ≠ some (.sign .power) := fun ht => (hstops _ ht).2.1 rfl
  exact run_map_ok lawful _ (run_seq_ok lawful (hread rest hparen)
    (run_orNot_none lawful (run_behind_fail lawful _ hcaret)))

theorem reads_raised {ts us : List Token} {p q : Phrase} (hp : ReadsAtom C ts p)
    (hq : ReadsPrefixed C us q) : ReadsPower C (ts ++ .sign .power :: us) (.binary .power p q) := by
  obtain ⟨hb, hp⟩ := hp
  refine ⟨hb.append _, fun rest hstops => ?_⟩
  rw [List.append_assoc, List.cons_append]
  refine run_map_ok lawful _ (run_seq_ok lawful (hp _ (by simp)) (run_orNot_some lawful ?_))
  rw [run_behind lawful]
  exact hq.2 rest hstops

theorem reads_number (x : Float) : ReadsAtom C [.number x] (.number x) := by
  refine ⟨⟨_, [], rfl, .inl ⟨x, rfl⟩⟩, fun rest _ => ?_⟩
  rw [atom, lawful.labelled]
  exact run_choice_first lawful _ (run_number lawful x rest)

theorem run_atom_name {s : String} {ts rest : List Token} {args? : Option (List Phrase)}
    (h : C.run (C.orNot (C.arguments C.phrase)) ts = .ok args? rest false) :
    C.run (C.atom C.phrase) (.name s :: ts) = .ok (named (s, args?)) rest false := by
  rw [atom, lawful.labelled, run_choice_next lawful (run_number_fail lawful (by simp))]
  exact run_choice_first lawful _ (run_map_ok lawful _ (run_seq_ok lawful (run_name lawful s ts) h))

theorem reads_name (s : String) : ReadsAtom C [.name s] (.name s) := by
  refine ⟨⟨_, [], rfl, .inr (.inl ⟨s, rfl⟩)⟩, fun rest hparen => ?_⟩
  refine run_atom_name lawful (run_orNot_none lawful ?_)
  rw [arguments, lawful.labelled]
  exact run_delimitedBy_fail lawful _ hparen

theorem run_phrase_fail (rest : List Token) : C.run C.phrase (.rparen :: rest) = .fail := by
  have hname : C.run (C.map named (C.seq C.name (C.orNot (C.arguments C.phrase))))
      (.rparen :: rest) = .fail :=
    run_map_fail lawful _ (run_seq_fail lawful _ (run_name_fail lawful (by simp)))
  have hgroup : C.run (C.group C.phrase) (.rparen :: rest) = .fail := by
    rw [group, lawful.labelled, lawful.recover_fail _ (run_delimitedBy_fail lawful _ (by simp)),
      lawful.nested_fail _ _ (by simp)]
  have hatom : C.run (C.atom C.phrase) (.rparen :: rest) = .fail := by
    rw [atom, lawful.labelled, run_choice_next lawful (run_number_fail lawful (by simp)),
      run_choice_next lawful hname, run_choice_next lawful hgroup, lawful.choice_nil]
  have hpower : C.run (C.power (C.atom C.phrase) (C.prefixed (C.atom C.phrase))) (.rparen :: rest)
      = .fail :=
    run_map_fail lawful _ (run_seq_fail lawful _ hatom)
  have hprefixed : C.run (C.prefixed (C.atom C.phrase)) (.rparen :: rest) = .fail := by
    rw [run_prefixed lawful, prefixedBody,
      run_choice_next lawful (run_signed_fail lawful (by simp) (by simp) _),
      run_choice_next lawful hpower, lawful.choice_nil]
  have hchain (layers : List (List BinaryOp)) :
      C.run (C.chain (C.prefixed (C.atom C.phrase)) layers) (.rparen :: rest) = .fail := by
    induction layers with
    | nil => exact hprefixed
    | cons ops tighter ih => exact lawful.foldl_fail _ _ ih
  rw [run_phrase lawful]
  exact hchain levels

theorem run_arguments {ps : List Phrase} {ts rest : List Token}
    (h : C.run (C.separatedBy C.phrase (C.just .comma)) ts = .ok ps (.rparen :: rest) false) :
    C.run (C.orNot (C.arguments C.phrase)) (.lparen :: ts) = .ok (some ps) rest false := by
  refine run_orNot_some lawful ?_
  rw [arguments, lawful.labelled]
  exact run_delimitedBy lawful h

theorem reads_noArgs (s : String) : ReadsAtom C [.name s, .lparen, .rparen] (.call s []) := by
  refine ⟨⟨_, _, rfl, .inr (.inl ⟨s, rfl⟩)⟩, fun rest _ => ?_⟩
  exact run_atom_name lawful (run_arguments lawful
    (lawful.separatedBy_fail _ (run_phrase_fail lawful rest)))

theorem reads_call {ts : List Token} {ps : List Phrase} (s : String) (h : ReadsArgs C ts ps) :
    ReadsAtom C (.name s :: .lparen :: (ts ++ [.rparen])) (.call s ps) := by
  obtain ⟨hb, hread⟩ := h
  refine ⟨⟨_, _, rfl, .inr (.inl ⟨s, rfl⟩)⟩, fun rest _ => ?_⟩
  obtain ⟨p, mid, hfirst, hitems⟩ := hread rest
  simp only [List.cons_append, List.append_assoc, List.nil_append]
  exact run_atom_name lawful (run_arguments lawful (lawful.separatedBy_ok hfirst hitems))

theorem run_phrase_of_readsChain {ts rest : List Token} {p : Phrase} (h : ReadsChain C levels ts p)
    (hrest : Stops levels rest) : C.run C.phrase (ts ++ rest) = .ok p rest false := by
  rw [run_phrase lawful]
  exact (h.2 (List.suffix_refl _)).2 rest hrest

theorem reads_group {ts : List Token} {p : Phrase} (h : ReadsChain C levels ts p) :
    ReadsAtom C (.lparen :: (ts ++ [.rparen])) p := by
  refine ⟨⟨_, _, rfl, .inr (.inr rfl)⟩, fun rest _ => ?_⟩
  have hphrase := run_phrase_of_readsChain lawful h (stops_of_head (.inr rfl) : Stops levels (.rparen :: rest))
  simp only [List.cons_append, List.append_assoc, List.nil_append]
  have hname : C.run (C.map named (C.seq C.name (C.orNot (C.arguments C.phrase))))
      (.lparen :: (ts ++ .rparen :: rest)) = .fail :=
    run_map_fail lawful _ (run_seq_fail lawful _ (run_name_fail lawful (by simp)))
  rw [atom, lawful.labelled, run_choice_next lawful (run_number_fail lawful (by simp)),
    run_choice_next lawful hname]
  refine run_choice_first lawful _ ?_
  rw [group, lawful.labelled]
  exact lawful.recover_ok _ (run_delimitedBy lawful hphrase)

theorem reads_one {ts : List Token} {p : Phrase} (h : ReadsChain C levels ts p) :
    ReadsArgs C ts [p] := by
  refine ⟨h.1, fun rest => ⟨p, .rparen :: rest, ?_, ?_⟩⟩
  · exact run_phrase_of_readsChain lawful h (stops_of_head (.inr rfl))
  · exact .stop (run_behind_fail lawful _ (by simp))

theorem reads_more {ts us : List Token} {p : Phrase} {ps : List Phrase}
    (hp : ReadsChain C levels ts p) (hps : ReadsArgs C us ps) :
    ReadsArgs C (ts ++ .comma :: us) (p :: ps) := by
  refine ⟨hp.1.append _, fun rest => ?_⟩
  obtain ⟨q, mid, hnext, hitems⟩ := hps.2 rest
  rw [List.append_assoc, List.cons_append]
  refine ⟨p, _, run_phrase_of_readsChain lawful hp (stops_of_head (.inl rfl)), ?_⟩
  have hlink : C.run (C.ignoreThen (C.just .comma) C.phrase) (.comma :: (us ++ .rparen :: rest))
      = .ok q mid false := by
    rw [run_behind lawful, hnext]
  exact .step hlink (Nat.lt_succ_of_le (lawful.shorter hnext)) (hitems.append [p])

/-- The parsers take every chain of the grammar. -/
theorem readsChain_of_isChain {layers : List (List BinaryOp)} {ts : List Token} {p : Phrase}
    (h : IsChain layers ts p) : ReadsChain C layers ts p :=
  @IsChain.rec (fun layers ts p _ => ReadsChain C layers ts p) (fun ts p _ => ReadsPrefixed C ts p)
    (fun ts p _ => ReadsPower C ts p) (fun ts p _ => ReadsAtom C ts p)
    (fun ts ps _ => ReadsArgs C ts ps)
    (fun _ h => reads_tightest h) (fun _ h => reads_single lawful h)
    (fun hop _ _ hp hq => reads_join lawful hop hp hq)
    (fun _ h => reads_neg lawful h) (fun _ h => reads_not lawful h) (fun _ h => reads_power lawful h)
    (fun _ h => reads_atom lawful h) (fun _ _ hp hq => reads_raised lawful hp hq)
    (reads_number lawful) (reads_name lawful) (reads_noArgs lawful)
    (fun s _ h => reads_call lawful s h) (fun _ h => reads_group lawful h)
    (fun _ h => reads_one lawful h) (fun _ _ hp hps => reads_more lawful hp hps) layers ts p h

theorem run_phrase_of_denotes {ts : List Token} {p : Phrase} (h : Denotes ts p) :
    C.run C.phrase ts = .ok p [] false := by
  have hrun := run_phrase_of_readsChain lawful (readsChain_of_isChain lawful h) (stops_end levels)
  rwa [List.append_nil] at hrun

end Phrase

end PrefixCalculus
