import PrefixCalculus.Phrase.Derivation
import PrefixCalculus.Proofs.AcceptedTokens
import PrefixCalculus.Proofs.LawfulReader
set_option autoImplicit false

/-!
Tokens have one derivation or none. A parser says where an operand ends, whatever stands behind it, so
two derivations of the same tokens are cut at the same places. Main statement: lawful parsers accept
tokens as a phrase exactly if they have a derivation, which is then the only one and denotes the
phrase; all other tokens are refused with a diagnostic.
-/

namespace PrefixCalculus

namespace Phrase

/-! Derivations and the rules of the grammar -/

mutual

theorem Chain.isChain : {layers : List (List BinaryOp)} → (d : Chain layers) →
    IsChain layers d.tokens d.phrase
  | _, .prefixed d => .tightest d.isPrefixed
  | _, .chain first links => links.isChain (.single first.isChain)

theorem Links.isChain : {ops : List BinaryOp} → {tighter : List (List BinaryOp)} →
    (links : Links ops tighter) → {ts : List Token} → {p : Phrase} →
      IsChain (ops :: tighter) ts p → IsChain (ops :: tighter) (ts ++ links.tokens) (links.onto p)
  | _, _, .done, ts, p, h => by simpa [Links.tokens, Links.onto] using h
  | _, _, .link op hop operand links, ts, p, h => by
    simpa [Links.tokens, Links.onto] using links.isChain (.join hop h operand.isChain)

theorem Prefixed.isPrefixed : (d : Prefixed) → IsPrefixed d.tokens d.phrase
  | .neg d => .neg d.isPrefixed
  | .not d => .not d.isPrefixed
  | .power d => .power d.isPower

theorem Power.isPower : (d : Power) → IsPower d.tokens d.phrase
  | .atom d => .atom d.isAtom
  | .raised base exponent => .raised base.isAtom exponent.isPrefixed

theorem Atom.isAtom : (d : Atom) → IsAtom d.tokens d.phrase
  | .number x => .number x
  | .name s => .name s
  | .noArgs s => .noArgs s
  | .call s args => .call s args.isArgs
  | .group d => .group d.isChain

theorem Arguments.isArgs : (d : Arguments) → IsArgs d.tokens d.phrases
  | .one d => .one d.isChain
  | .more d args => .more d.isChain args.isArgs

end

theorem Links.exists_snoc {ops : List BinaryOp} {tighter : List (List BinaryOp)} {op : BinaryOp}
    (hop : op ∈ ops) (operand : Chain tighter) : (links : Links ops tighter) →
      ∃ links' : Links ops tighter, links'.tokens = links.tokens ++ .sign op :: operand.tokens ∧
        ∀ p, links'.onto p = .binary op (links.onto p) operand.phrase
  | .done => ⟨.link op hop operand .done, by simp [Links.tokens], fun _ => rfl⟩
  | .link op' hop' d links =>
    have ⟨links', htokens, honto⟩ := exists_snoc hop operand links
    ⟨.link op' hop' d links', by simp [Links.tokens, htokens],
      fun p => honto (.binary op' p d.phrase)⟩

mutual

theorem IsChain.exists_derivation {layers : List (List BinaryOp)} {ts : List Token} {p : Phrase} :
    IsChain layers ts p → ∃ d : Chain layers, d.tokens = ts ∧ d.phrase = p
  | .tightest h =>
    have ⟨d, hts, hp⟩ := h.exists_derivation
    ⟨.prefixed d, hts, hp⟩
  | .single h =>
    have ⟨d, hts, hp⟩ := h.exists_derivation
    ⟨.chain d .done, by simp [Chain.tokens, Links.tokens, hts], hp⟩
  | .join hop hl hr =>
    have ⟨.chain first links, hts, hp⟩ := hl.exists_derivation
    have ⟨d, hus, hq⟩ := hr.exists_derivation
    have ⟨links', htokens, honto⟩ := links.exists_snoc hop d
    ⟨.chain first links', by simp [← hts, ← hus, Chain.tokens, htokens],
      by simp [← hp, ← hq, Chain.phrase, honto]⟩

theorem IsPrefixed.exists_derivation {ts : List Token} {p : Phrase} :
    IsPrefixed ts p → ∃ d : Prefixed, d.tokens = ts ∧ d.phrase = p
  | .neg h =>
    have ⟨d, hts, hp⟩ := h.exists_derivation
    ⟨.neg d, by rw [Prefixed.tokens, hts], by rw [Prefixed.phrase, hp]⟩
  | .not h =>
    have ⟨d, hts, hp⟩ := h.exists_derivation
    ⟨.not d, by rw [Prefixed.tokens, hts], by rw [Prefixed.phrase, hp]⟩
  | .power h =>
    have ⟨d, hts, hp⟩ := h.exists_derivation
    ⟨.power d, hts, hp⟩

theorem IsPower.exists_derivation {ts : List Token} {p : Phrase} :
    IsPower ts p → ∃ d : Power, d.tokens = ts ∧ d.phrase = p
  | .atom h =>
    have ⟨d, hts, hp⟩ := h.exists_derivation
    ⟨.atom d, hts, hp⟩
  | .raised hbase hexponent =>
    have ⟨d, hts, hp⟩ := hbase.exists_derivation
    have ⟨d', hus, hq⟩ := hexponent.exists_derivation
    ⟨.raised d d', by rw [Power.tokens, hts, hus], by rw [Power.phrase, hp, hq]⟩

theorem IsAtom.exists_derivation {ts : List Token} {p : Phrase} :
    IsAtom ts p → ∃ d : Atom, d.tokens = ts ∧ d.phrase = p
  | .number x => ⟨.number x, rfl, rfl⟩
  | .name s => ⟨.name s, rfl, rfl⟩
  | .noArgs s => ⟨.noArgs s, rfl, rfl⟩
  | .call s h =>
    have ⟨d, hts, hp⟩ := h.exists_derivation
    ⟨.call s d, by rw [Atom.tokens, hts], by rw [Atom.phrase, hp]⟩
  | .group h =>
    have ⟨d, hts, hp⟩ := h.exists_derivation
    ⟨.group d, by rw [Atom.tokens, hts], hp⟩

theorem IsArgs.exists_derivation {ts : List Token} {ps : List Phrase} :
    IsArgs ts ps → ∃ d : Arguments, d.tokens = ts ∧ d.phrases = ps
  | .one h =>
    have ⟨d, hts, hp⟩ := h.exists_derivation
    ⟨.one d, hts, by rw [Arguments.phrases, hp]⟩
  | .more h hargs =>
    have ⟨d, hts, hp⟩ := h.exists_derivation
    have ⟨args, hus, hps⟩ := hargs.exists_derivation
    ⟨.more d args, by rw [Arguments.tokens, hts, hus], by rw [Arguments.phrases, hp, hps]⟩

end

theorem denotes_iff_exists_derivation {ts : List Token} {p : Phrase} :
    Denotes ts p ↔ ∃ d : Derivation, d.tokens = ts ∧ d.phrase = p :=
  ⟨IsChain.exists_derivation, by rintro ⟨d, rfl, rfl⟩; exact d.isChain⟩

/-! Where a derivation ends -/

theorem IsChain.begins {layers : List (List BinaryOp)} {ts : List Token} {p : Phrase}
    (h : IsChain layers ts p) : Begins ts :=
  (readsChain_of_isChain reader_lawful h).1

theorem readsArgs_of_isArgs {ts : List Token} {ps : List Phrase} :
    IsArgs ts ps → ReadsArgs reader ts ps
  | .one h => reads_one reader_lawful (readsChain_of_isChain reader_lawful h)
  | .more hp hps =>
    reads_more reader_lawful (readsChain_of_isChain reader_lawful hp) (readsArgs_of_isArgs hps)

theorem readsAtom_of_isAtom {ts : List Token} {p : Phrase} (h : IsAtom ts p) :
    ReadsAtom reader ts p := by
  cases h with
  | number x => exact reads_number reader_lawful x
  | name s => exact reads_name reader_lawful s
  | noArgs s => exact reads_noArgs reader_lawful s
  | call s h => exact reads_call reader_lawful s (readsArgs_of_isArgs h)
  | group h => exact reads_group reader_lawful (readsChain_of_isChain reader_lawful h)

/-- Two chains in front of what does not go on with them are equally long. -/
theorem IsChain.cut {layers : List (List BinaryOp)} (hlayers : layers <:+ levels)
    {ts us rest rest' : List Token} {p q : Phrase} (hp : IsChain layers ts p)
    (hq : IsChain layers us q) (hrest : Stops layers rest) (hrest' : Stops layers rest')
    (h : ts ++ rest = us ++ rest') : ts = us ∧ rest = rest' := by
  have hread := ((readsChain_of_isChain reader_lawful hp).2 hlayers).2 rest hrest
  have hread' := ((readsChain_of_isChain reader_lawful hq).2 hlayers).2 rest' hrest'
  rw [h, hread'] at hread
  cases hread
  exact ⟨List.append_cancel_right h, rfl⟩

theorem IsAtom.cut {ts us rest rest' : List Token} {p q : Phrase} (hp : IsAtom ts p)
    (hq : IsAtom us q) (hrest : rest.head? ≠ some .lparen) (hrest' : rest'.head? ≠ some .lparen)
    (h : ts ++ rest = us ++ rest') : ts = us ∧ rest = rest' := by
  have hread := (readsAtom_of_isAtom hp).2 rest hrest
  have hread' := (readsAtom_of_isAtom hq).2 rest' hrest'
  rw [h, hread'] at hread
  cases hread
  exact ⟨List.append_cancel_right h, rfl⟩

theorem Links.stops {ops : List BinaryOp} {tighter : List (List BinaryOp)}
    (hlayers : ops :: tighter <:+ levels) : (links : Links ops tighter) → Stops tighter links.tokens
  | .done => stops_end tighter
  | .link _ hop _ _ => stops_sign hlayers hop

/-! Two derivations of the same tokens are the same -/

theorem Power.begins : (d : Power) → BeginsAtom d.tokens
  | .atom d => (readsAtom_of_isAtom d.isAtom).1
  | .raised base _ => (readsAtom_of_isAtom base.isAtom).1.append _

theorem Arguments.tokens_ne_nil (args : Arguments) : args.tokens ≠ [] :=
  List.ne_nil_of_length_pos (readsArgs_of_isArgs args.isArgs).1.length_pos

mutual

theorem Chain.eq_of_tokens : {layers : List (List BinaryOp)} → layers <:+ levels →
    (d d' : Chain layers) → d.tokens = d'.tokens → d = d'
  | _, _, .prefixed d, .prefixed d', h => by rw [d.eq_of_tokens d' h]
  | _, hlayers, .chain first links, .chain first' links', h => by
    have htighter := (List.suffix_cons _ _).trans hlayers
    obtain ⟨hfirst, hlinks⟩ := IsChain.cut htighter first.isChain first'.isChain
      (links.stops hlayers) (links'.stops hlayers) h
    rw [first.eq_of_tokens htighter first' hfirst, links.eq_of_tokens hlayers links' hlinks]
termination_by structural _ _ d => d

theorem Links.eq_of_tokens : {ops : List BinaryOp} → {tighter : List (List BinaryOp)} →
    ops :: tighter <:+ levels → (links links' : Links ops tighter) →
      links.tokens = links'.tokens → links = links'
  | _, _, _, .done, .done, _ => rfl
  | _, _, _, .done, .link .., h => by cases h
  | _, _, _, .link .., .done, h => by cases h
  | _, _, hlayers, .link op _ d links, .link op' _ d' links', h => by
    have htighter := (List.suffix_cons _ _).trans hlayers
    simp only [Links.tokens, List.cons.injEq, Token.sign.injEq] at h
    obtain ⟨rfl, h⟩ := h
    obtain ⟨hd, hlinks⟩ := IsChain.cut htighter d.isChain d'.isChain
      (links.stops hlayers) (links'.stops hlayers) h
    rw [d.eq_of_tokens htighter d' hd, links.eq_of_tokens hlayers links' hlinks]
termination_by structural _ _ _ links => links

theorem Prefixed.eq_of_tokens : (d d' : Prefixed) → d.tokens = d'.tokens → d = d'
  | .neg d, .neg d', h => by rw [d.eq_of_tokens d' (List.cons.inj h).2]
  | .not d, .not d', h => by rw [d.eq_of_tokens d' (List.cons.inj h).2]
  | .power d, .power d', h => by rw [d.eq_of_tokens d' h]
  | .neg _, .not _, h | .not _, .neg _, h => by cases (List.cons.inj h).1
  | .neg _, .power d, h => absurd (congrArg List.head? h.symm) d.begins.not_sign.1
  | .power d, .neg _, h => absurd (congrArg List.head? h) d.begins.not_sign.1
  | .not _, .power d, h => absurd (congrArg List.head? h.symm) d.begins.not_sign.2
  | .power d, .not _, h => absurd (congrArg List.head? h) d.begins.not_sign.2
termination_by structural d => d

theorem Power.eq_of_tokens : (d d' : Power) → d.tokens = d'.tokens → d = d'
  | .atom d, .atom d', h => by rw [d.eq_of_tokens d' h]
  | .raised base exponent, .raised base' exponent', h => by
    obtain ⟨hbase, hexponent⟩ := base.isAtom.cut base'.isAtom (by simp) (by simp) h
    rw [base.eq_of_tokens base' hbase,
      exponent.eq_of_tokens exponent' (List.cons.inj hexponent).2]
  | .atom d, .raised base _, h => by
    cases (d.isAtom.cut base.isAtom (by simp) (by simp) ((List.append_nil _).trans h)).2
  | .raised base _, .atom d, h => by
    cases (base.isAtom.cut d.isAtom (by simp) (by simp) (h.trans (List.append_nil _).symm)).2
termination_by structural d => d

theorem Atom.eq_of_tokens : (d d' : Atom) → d.tokens = d'.tokens → d = d'
  | .number _, d', h => by cases d' <;> simp_all [Atom.tokens]
  | .name _, d', h => by cases d' <;> simp_all [Atom.tokens]
  | .noArgs _, d', h => by cases d' <;> simp_all [Atom.tokens, Arguments.tokens_ne_nil]
  | .call s args, .call s' args', h => by
    simp only [Atom.tokens, List.cons.injEq, Token.name.injEq, true_and] at h
    obtain ⟨rfl, h⟩ := h
    rw [args.eq_of_tokens args' (List.append_cancel_right h)]
  | .group d, .group d', h => by
    have hd : d.tokens = d'.tokens := List.append_cancel_right (List.cons.inj h).2
    rw [d.eq_of_tokens (List.suffix_refl _) d' hd]
  | .call _ _, .number _, h | .call _ _, .name _, h | .call _ _, .noArgs _, h
  | .call _ _, .group _, h => by simp_all [Atom.tokens, Arguments.tokens_ne_nil]
  | .group _, .number _, h | .group _, .name _, h | .group _, .noArgs _, h
  | .group _, .call _ _, h => by simp_all [Atom.tokens]
termination_by structural d => d

theorem Arguments.eq_of_tokens : (d d' : Arguments) → d.tokens = d'.tokens → d = d'
  | .one d, .one d', h => by rw [d.eq_of_tokens (List.suffix_refl _) d' h]
  | .more d args, .more d' args', h => by
    obtain ⟨hd, hargs⟩ := IsChain.cut (List.suffix_refl _) d.isChain d'.isChain
      (stops_of_head (.inl rfl)) (stops_of_head (.inl rfl)) h
    rw [d.eq_of_tokens (List.suffix_refl _) d' hd,
      args.eq_of_tokens args' (List.cons.inj hargs).2]
  | .one d, .more d' _, h => by
    cases (IsChain.cut (List.suffix_refl _) d.isChain d'.isChain (stops_end levels)
      (stops_of_head (.inl rfl)) ((List.append_nil _).trans h)).2
  | .more d _, .one d', h => by
    cases (IsChain.cut (List.suffix_refl _) d.isChain d'.isChain (stops_of_head (.inl rfl))
      (stops_end levels) (h.trans (List.append_nil _).symm)).2
termination_by structural d => d

end

/-- Tokens have one derivation at most. -/
theorem derivation_unique {d d' : Derivation} (h : d.tokens = d'.tokens) : d = d' :=
  d.eq_of_tokens (List.suffix_refl _) d' h

end Phrase

/-- **Reading accepts exactly the grammar.** By any lawful parsers, tokens are read as a phrase exactly
if they have a derivation that denotes it, and no tokens have two. Nothing is found wrong with tokens
that have one; all others are refused, and something is found wrong with them. -/
theorem readPhrase_iff_unique_derivation {C : Combinators} (lawful : C.Lawful) (ts : List Token) :
    (∀ p, C.readPhrase ts = .ok p ↔
      ∃ d : Phrase.Derivation, (∀ d' : Phrase.Derivation, d'.tokens = ts ↔ d' = d) ∧ d.phrase = p) ∧
    ((C.parse (C.thenIgnore C.phrase C.finish) ts).2 = [] ↔
      ∃! d : Phrase.Derivation, d.tokens = ts) ∧
    ((¬ ∃ d : Phrase.Derivation, d.tokens = ts) ↔ ∃ fault faults,
      C.readPhrase ts = .error (.diagnostics ((fault :: faults).map .reading))) := by
  have hread (p : Phrase) : C.readPhrase ts = .ok p ↔
      ∃ d : Phrase.Derivation, (∀ d' : Phrase.Derivation, d'.tokens = ts ↔ d' = d) ∧
        d.phrase = p := by
    rw [Combinators.readPhrase_eq_ok_iff lawful, Phrase.denotes_iff_exists_derivation]
    constructor
    · rintro ⟨d, rfl, hp⟩
      exact ⟨d, fun d' => ⟨Phrase.derivation_unique, fun h => by rw [h]⟩, hp⟩
    · rintro ⟨d, hd, hp⟩
      exact ⟨d, (hd d).2 rfl, hp⟩
  have hexists : (∃ d : Phrase.Derivation, d.tokens = ts) ↔ ∃ p, C.readPhrase ts = .ok p := by
    simp only [Combinators.readPhrase_eq_ok_iff lawful, Phrase.denotes_iff_exists_derivation]
    exact ⟨fun ⟨d, hd⟩ => ⟨_, d, hd, rfl⟩, fun ⟨_, d, hd, _⟩ => ⟨d, hd⟩⟩
  refine ⟨hread, ?_, ?_⟩
  · rw [Combinators.parse_clean_iff lawful]
    constructor
    · rintro ⟨p, us, hrun⟩
      obtain ⟨hphrase, -⟩ := (Combinators.run_whole_iff lawful).1 hrun
      obtain ⟨d, hd, -⟩ := (hread p).1 ((Combinators.accept_eq_ok_iff lawful).2 hphrase)
      exact ⟨d, (hd d).2 rfl, fun d' => (hd d').1⟩
    · rintro ⟨d, hd, -⟩
      obtain ⟨p, hp⟩ := hexists.1 ⟨d, hd⟩
      have hphrase := (Combinators.accept_eq_ok_iff lawful).1 hp
      exact ⟨p, [], (Combinators.run_whole_iff lawful).2 ⟨hphrase, rfl⟩⟩
  · rw [hexists]
    constructor
    · intro hno
      cases hresult : C.readPhrase ts with
      | ok p => exact absurd ⟨p, hresult⟩ hno
      | error e =>
        obtain ⟨fault, faults, rfl⟩ := Combinators.exists_of_accept_error lawful hresult
        exact ⟨fault, faults, rfl⟩
    · rintro ⟨fault, faults, herror⟩ ⟨p, hp⟩
      cases herror.symm.trans hp

/-- The tokens of `a - -x ^ -2 - f(y, !z)`. -/
def signedPower : List Token :=
  [.name "a", .sign .sub, .sign .sub, .name "x", .sign .power, .sign .sub, .number 2.0, .sign .sub,
    .name "f", .lparen, .name "y", .comma, .bang, .name "z", .rparen]

/-- The differences group to the left, the power is below the sign before it and above the one behind
it; a comma without an argument behind it is refused, and so is a group that goes on behind a comma. -/
theorem readPhrase_signedPower :
    reader.Lawful ∧
    (∃ d : Phrase.Derivation, (∀ d' : Phrase.Derivation, d'.tokens = signedPower ↔ d' = d) ∧
      d.phrase = .binary .sub
        (.binary .sub (.name "a") (.neg (.binary .power (.name "x") (.neg (.number 2.0)))))
        (.call "f" [.name "y", .not (.name "z")])) ∧
    (¬ ∃ d : Phrase.Derivation, d.tokens = [.name "f", .lparen, .name "y", .comma, .rparen]) ∧
    ¬ ∃ d : Phrase.Derivation, d.tokens = [.lparen, .name "x", .comma, .name "y", .rparen] := by
  refine ⟨reader_lawful, ?_, ?_, ?_⟩
  · exact ((readPhrase_iff_unique_derivation reader_lawful signedPower).1 _).1 rfl
  · exact (readPhrase_iff_unique_derivation reader_lawful _).2.2.2 ⟨some .rparen, [], rfl⟩
  · -- the group is skipped, and what was found wrong in it is recorded
    exact (readPhrase_iff_unique_derivation reader_lawful _).2.2.2 ⟨some .comma, [], rfl⟩

end PrefixCalculus
