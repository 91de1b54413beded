import PrefixCalculus.Proofs.CalledNames
import PrefixCalculus.Proofs.FunctionIds
import PrefixCalculus.Proofs.PrintedForm
import PrefixCalculus.Proofs.TextLength
import PrefixCalculus.Proofs.WellScoped
set_option autoImplicit false

/-!
A function that is defined again from its printed body. The body is written with the positions of the
parameters, so it may stand behind any list of as many new ones. Main statement: behind such a heading
the printed body of a function that was defined by a text is accepted, and the function keeps its
identifier and has the body in the form that printed expressions are read back in. Parsers and renderers
are any that keep to their laws.
-/

namespace PrefixCalculus

/-! Headings as text -/

namespace Heading

def text (h : Heading) : String :=
  h.name ++ "(" ++ ", ".intercalate h.params ++ ") = "

theorem lexes_names {ps : List String} : ∀ {p : String},
    (∀ q ∈ p :: ps, Token.isIdentifier q = true) →
      Token.Lexes (", ".toList.intercalate ((p :: ps).map String.toList))
        (nameTokens (p :: ps)) := by
  induction ps with
  | nil =>
    intro p hident
    rw [List.map_singleton, List.intercalate_singleton]
    exact Token.lexes_name (hident p List.mem_cons_self)
  | cons q ps ih =>
    intro p hident
    obtain ⟨hp, hps⟩ := List.forall_mem_cons.1 hident
    rw [List.map_cons, List.map_cons, List.intercalate_cons_cons, List.append_assoc]
    have hrest := Token.Lexes.blank (c := ' ') (by decide) (ih hps)
    exact (Token.lexes_name hp).append (Lexed.separated_of_head (by decide))
      (.token (s := ⟨.comma, _, _⟩) rfl hrest)

theorem lexes_text {h : Heading} (hname : Token.isIdentifier h.name = true)
    (hparams : ∀ p ∈ h.params, Token.isIdentifier p = true) {cs : List Char} {ts : List Token}
    (hbody : Token.Lexes cs ts) : Token.Lexes (h.text.toList ++ cs) (h.tokens ++ ts) := by
  have hassign : Token.Lexes (' ' :: '=' :: ' ' :: cs) (.assign :: ts) :=
    .blank (by decide) (.token (s := ⟨.assign, _, _⟩) rfl (.blank (by decide) hbody))
  have hclose : Token.Lexes (')' :: ' ' :: '=' :: ' ' :: cs) (.rparen :: .assign :: ts) :=
    .token (s := ⟨.rparen, _, _⟩) rfl hassign
  obtain ⟨name, params⟩ := h
  have hseparated {cs : List Char} : Token.Separated ('(' :: cs) :=
    Lexed.separated_of_head (by decide)
  cases params with
  | nil =>
    have hlexes := (Token.lexes_name hname).append hseparated
      (.token (s := ⟨.lparen, _, _⟩) rfl hclose)
    simpa [text, tokens, nameTokens] using hlexes
  | cons p ps =>
    have hinner := (lexes_names hparams).append (Lexed.separated_of_head (by decide)) hclose
    have hlexes := (Token.lexes_name hname).append hseparated
      (.token (s := ⟨.lparen, _, _⟩) rfl hinner)
    simpa [text, tokens, String.toList_intercalate] using hlexes

theorem duplicates_eq_nil {ps : List String} : ∀ {before : List String}, ps.Nodup →
    (∀ p ∈ ps, p ∉ before) → duplicates before ps = [] := by
  induction ps with
  | nil => exact fun _ _ => rfl
  | cons p ps ih =>
    intro before hdistinct hnew
    rw [List.nodup_cons] at hdistinct
    have hp : before.contains p = false := by simpa using hnew p List.mem_cons_self
    rw [duplicates, hp, if_neg Bool.false_ne_true]
    refine ih hdistinct.2 fun q hq hmem => ?_
    rcases List.mem_append.1 hmem with hmem | hmem
    · exact hnew q (List.mem_cons_of_mem p hq) hmem
    · rw [List.mem_singleton.1 hmem] at hq
      exact hdistinct.1 hq

end Heading

/-! Positional names -/

namespace Phrase

theorem position?_position (i : UInt32) : position? ("_" ++ toString i) = some i := by
  have hdigits : ∀ c ∈ Decimal.digits i.toNat, Decimal.isDigit c = true :=
    fun c hc => Decimal.isDigit_of_mem_digits hc
  have hvalue : Decimal.ofDigits (Decimal.digits i.toNat) = i.toNat :=
    Nat.ofDigitChars_ten_toDigits
  have hsome : (Decimal.digits i.toNat).isEmpty = false := by
    simpa using Decimal.digits_ne_nil i.toNat
  have hlt : i.toNat < UInt32.size := i.toNat_lt
  simp only [position?, Term.toList_position, hsome, List.all_eq_true.2 hdigits, hvalue, hlt,
    Bool.not_true, Bool.or_self, Bool.false_eq_true, if_false, if_true, UInt32.ofNat_toNat]

theorem names_position {params : List String} (hplain : ∀ p ∈ params, position? p = none)
    (env : Environment) {i : UInt32} (hi : i.toNat < params.length) :
    Scope.Names ⟨params, true⟩ env ("_" ++ toString i) (.arg i) := by
  refine .position (fun hmem => ?_) (position?_position i) hi
  have hnone := hplain _ hmem
  rw [position?_position] at hnone
  cases hnone

end Phrase

namespace Environment

/-! Places keep their names -/

section

variable {env after : Environment} {i : Nat} {found : Entry}

theorem Updates.exists_entry {entry : Entry} (h : env.Updates after entry)
    (hi : env.entries[i]? = some found) :
    ∃ later, after.entries[i]? = some later ∧ later.function.name = found.function.name := by
  by_cases hplace : i = env.placeFor entry.function.name
  · subst hplace
    refine ⟨entry, h.entries_self, ?_⟩
    rcases env.binds_placeFor entry.function.name with ⟨bound, hbound, -, hname⟩ | hnew
    · cases hi.symm.trans hbound
      exact hname.symm
    · rw [hnew, functionCount, Array.getElem?_eq_none (Nat.le_refl _)] at hi
      cases hi
  · exact ⟨found, by rw [h.entries_of_ne hplace, hi], rfl⟩

theorem exists_entry_perform (hi : env.entries[i]? = some found) (c : FunctionCommand) :
    ∃ later, (env.perform c).entries[i]? = some later ∧
      later.function.name = found.function.name := by
  obtain h | ⟨entry, h, -⟩ := env.perform_cases c
  · exact ⟨found, by rw [h, hi], rfl⟩
  · exact h.exists_entry hi

theorem exists_entry_performAll (commands : List FunctionCommand) :
    ∀ {env : Environment} {found : Entry}, env.entries[i]? = some found →
      ∃ later, (env.performAll commands).entries[i]? = some later ∧
        later.function.name = found.function.name := by
  induction commands with
  | nil => exact fun hi => ⟨_, hi, rfl⟩
  | cons c commands ih =>
    intro env found hi
    obtain ⟨mid, hmid, hname⟩ := exists_entry_perform hi c
    obtain ⟨later, hlater, hname'⟩ := ih hmid
    exact ⟨later, hlater, hname'.trans hname⟩

theorem name_performAll (commands : List FunctionCommand) {f : FunctionId}
    {function later : Function} (h : env.function? f = some function)
    (hlater : (env.performAll commands).function? f = some later) : later.name = function.name := by
  obtain ⟨found, hfound, rfl⟩ := Option.map_eq_some_iff.1 h
  obtain ⟨entry, hentry, hname⟩ := exists_entry_performAll commands hfound
  rw [function?, hentry] at hlater
  cases hlater
  exact hname

end

def performAllBy (C : Combinators) (env : Environment) (commands : List FunctionCommand) :
    Environment :=
  commands.foldl (fun env c =>
    match c with
    | .defineText text => (env.defineTextBy C text).2
    | c => env.perform c) env

theorem performAllBy_eq {C : Combinators} (lawful : C.Lawful) (commands : List FunctionCommand) :
    ∀ env : Environment, env.performAllBy C commands = env.performAll commands := by
  induction commands with
  | nil => exact fun _ => rfl
  | cons c commands ih =>
    intro env
    cases c with
    | defineText text =>
      have htext : (env.defineTextBy C text).2 = env.perform (.defineText text) :=
        snd_defineTextBy lawful env text
      rw [performAllBy, List.foldl_cons]
      simp only [htext]
      exact ih _
    | _ => exact ih _

/-! A function that is bound is defined again -/

section

variable {env : Environment} {id : FunctionId} {g : Function}

theorem Updates.unique {after after' : Environment} {entry : Entry} (h : env.Updates after entry)
    (h' : env.Updates after' entry) (hslots : after.slots = after'.slots) : after = after' := by
  have hentries : after.entries = after'.entries := Array.ext_getElem? fun i => by rw [h i, h' i]
  cases after
  cases after'
  cases hslots
  cases hentries
  rfl

theorem define_declare (env : Environment) (h : Heading) (body : Expression) :
    ((env.declare h).define h.name (UInt32.ofNat h.params.length) body).2
      = (env.define h.name (UInt32.ofNat h.params.length) body).2 := by
  have hfirst := env.updates_define ⟨h.name, UInt32.ofNat h.params.length, Expression.null⟩
  have hlater := (env.declare h).updates_define ⟨h.name, UInt32.ofNat h.params.length, body⟩
  refine (hfirst.trans rfl hlater rfl).unique (env.updates_define ⟨h.name, _, body⟩) ?_
  rw [slots_define, declare, slots_define, slots_define]

theorem sameSignatures_declare (small : env.functionCount < UInt32.size)
    (hbound : env.functionId? g.name = some id) (hfunction : env.function? id = some g)
    {params : List String} (hcount : UInt32.ofNat params.length = g.argc) :
    env.SameSignatures (env.declare ⟨g.name, params⟩) := by
  have h := env.updates_define ⟨g.name, UInt32.ofNat params.length, Expression.null⟩
  have hplace : env.placeFor g.name = id.index.toNat :=
    placeFor_of_entryOf? ((functionId?_eq_some_iff small).1 hbound)
  constructor
  · intro name
    by_cases hname : name = g.name
    · rw [hname, declare, h.functionId?_self, hbound, hplace, UInt32.ofNat_toNat]
    · exact h.functionId?_of_ne hname
  · intro f
    rw [declare, function?, function?, h f.index.toNat, hplace]
    split
    next hf =>
      rw [function?] at hfunction
      rw [hf, hfunction, Option.map_some, Option.map_some, Option.map_some, hcount]
    · rfl

end

end Environment

/-- What a body, written with the names of the environment, has to refer to in order to be read back
behind a heading with the parameters. -/
structure Function.Restorable (g : Function) (env : Environment) (params : List String) : Prop where
  /-- Calls are of functions that are still bound to their names and take as many arguments. -/
  calls : ∀ f argc, .call f argc ∈ g.body.nodes → ∃ function, env.function? f = some function ∧
    env.functionId? function.name = some f ∧ function.argc = argc
  /-- Variables have names of their own, which are no positions. -/
  refs : ∀ a, .ref a ∈ g.body.nodes → env.IsNamed a ∧
    Phrase.position? (Term.variableName env a) = none
  count : params.length = g.argc.toNat
  distinct : params.Nodup
  /-- Parameters are identifiers, no positions, and no names of the variables. -/
  plain : ∀ p ∈ params, Token.isIdentifier p = true ∧ Phrase.position? p = none ∧
    ∀ a, .ref a ∈ g.body.nodes → Term.variableName env a ≠ p
  /-- Parameters are no words for the numbers that are written with words. -/
  words : ∀ x, .literal x ∈ g.body.nodes →
    (x.value.isNaN = true → "nan" ∉ params) ∧ (x.value.isInf = true → "inf" ∉ params)

namespace Environment

section

variable {start declared : Environment} {text : String} {id : FunctionId} {g : Function}

/-- What is known of a function that a text has defined. -/
structure DefinedAs (declared : Environment) (g : Function) (t : Term) : Prop where
  body : g.body = t.encode
  fits : t.Fits
  name : Token.isIdentifier g.name = true ∧ Heading.isBuiltin g.name = false
  args : ∀ i, .arg i ∈ g.body.nodes → i.toNat < g.argc.toNat
  callees : ∀ f argc, .call f argc ∈ g.body.nodes → ∃ callee,
    declared.function? f = some callee ∧ Token.isIdentifier callee.name = true ∧
      Phrase.NamesFunction callee.name

theorem exists_definedAs (hdefined : start.defineText text = (.ok id, declared))
    (small : declared.functionCount < UInt32.size) (short : text.length ≤ UInt32.size)
    (hg : declared.function? id = some g) : ∃ t, declared.DefinedAs g t := by
  obtain ⟨h, body, t, definition, sound, ht, updates, rebinds, -⟩ :=
    exists_of_defineText_ok hdefined
  have small' : start.functionCount < UInt32.size :=
    Nat.lt_of_le_of_lt updates.functionCount_le small
  rw [rebinds.function?_self small'] at hg
  cases hg
  have hlength := length_of_definition definition
  have hsize := ht.size_le
  obtain ⟨hident, hcallees⟩ := isIdentifier_of_definition definition
  refine ⟨t, rfl, Term.fits_of_size (by omega), ⟨hident, ?_⟩, fun i hi => ?_, fun f argc hf => ?_⟩
  · cases hbuiltin : Heading.isBuiltin h.name with
    | false => rfl
    | true =>
      rw [Heading.diagnostics, hbuiltin] at sound
      cases sound
  · have hi : i.toNat < h.params.length := ht.wellScoped.nodes _ hi
    have hargc : (UInt32.ofNat h.params.length).toNat = h.params.length :=
      UInt32.toNat_ofNat_of_lt (by omega)
    exact hargc.symm ▸ hi
  · have hopen : .call f argc ∈ t.encode.openNodes := Expression.mem_openNodes.2 ⟨hf, rfl⟩
    obtain ⟨name, hname, hnames, hid⟩ := ht.calledBy (List.Subset.refl _) _ hopen
    obtain ⟨callee, hcallee, rfl⟩ := (identifies small).stored hid
    exact ⟨callee, hcallee, hcallees _ hname, hnames⟩

theorem legible_of_restorable {t : Term} (defined : declared.DefinedAs g t)
    (commands : List FunctionCommand) {params : List String}
    (restorable : g.Restorable (declared.performAll commands) params) :
    t.Legible ⟨params, true⟩ (declared.performAll commands) := by
  intro node hnode
  rw [← defined.body] at hnode
  cases node with
  | literal x => exact restorable.words x hnode
  | ref a =>
    obtain ⟨hnamed, hposition⟩ := restorable.refs a hnode
    have hlegible : (Node.ref a).Legible Phrase.outside (declared.performAll commands) :=
      Node.Readable.legible hnamed
    obtain ⟨hident, hnames⟩ := hlegible
    cases hnames with
    | address free ha =>
      refine ⟨hident, .address ⟨fun hmem => ?_, hposition, free.not_constant⟩ ha⟩
      exact (restorable.plain _ hmem).2.2 a hnode rfl
  | arg i =>
    refine Phrase.names_position (fun p hp => (restorable.plain p hp).2.1) _ ?_
    rw [restorable.count]
    exact defined.args i hnode
  | call f argc =>
    obtain ⟨function, hfunction, hbound, hargc⟩ := restorable.calls f argc hnode
    obtain ⟨callee, hcallee, hident, hnames⟩ := defined.callees f argc hnode
    have hname : function.name = callee.name := name_performAll commands hcallee hfunction
    have hwritten : Term.functionName (declared.performAll commands) f = function.name := by
      rw [Term.functionName, hfunction]
    rw [Node.Legible, hwritten, hfunction]
    exact ⟨hname ▸ hident, hname ▸ hnames, hbound, hargc⟩
  | _ => trivial

/-- A legible body is accepted behind the heading, in the place of the function. -/
theorem defineText_of_legible {env : Environment} (small : env.functionCount < UInt32.size)
    (hbound : env.functionId? g.name = some id) (hfunction : env.function? id = some g)
    {params : List String} (hname : Token.isIdentifier g.name = true ∧ Heading.isBuiltin g.name = false)
    (hparams : ∀ p ∈ params, Token.isIdentifier p = true) (distinct : params.Nodup)
    (hcount : params.length = g.argc.toNat) {t : Term} (fits : t.Fits)
    (legible : t.Legible ⟨params, true⟩ env) {R : Renderer Style} (lawful : R.Lawful) (width : Nat) :
    env.defineText ((Heading.mk g.name params).text ++ t.encode.prettyBy R env width)
      = (.ok id, (env.define g.name g.argc t.normalForm.encode).2) := by
  have hargc : UInt32.ofNat params.length = g.argc := by rw [hcount, UInt32.ofNat_toNat]
  have definition : definitionOf ((Heading.mk g.name params).text ++ t.encode.prettyBy R env width)
      = .ok (⟨g.name, params⟩, t.phrase env) := by
    have hlexes := Heading.lexes_text (h := ⟨g.name, params⟩) hname.1 hparams
      (Term.lexes_pretty lawful fits legible width)
    rw [← String.toList_append] at hlexes
    refine definitionOf_eq_ok_iff.2 ⟨_, ?_, Term.denotes_tokens env t⟩
    rw [tokensOf, (Token.Lexes.ofText_eq_ok_iff (by simp [Heading.tokens])).2 hlexes]
  have sound : (Heading.mk g.name params).diagnostics = [] := by
    rw [Heading.diagnostics, hname.2, Heading.duplicates_eq_nil distinct (by simp)]
    rfl
  -- the body is read where the function is declared, which changes no name and no count
  have means : Phrase.Means ⟨params, true⟩ (env.declare ⟨g.name, params⟩) (t.phrase env)
      t.normalForm :=
    (Term.means_phrase fits legible).mono (env.adds_define ..)
      (sameSignatures_declare small hbound hfunction hargc)
  have hread : env.readBody ⟨g.name, params⟩ (t.phrase env)
      = (t.normalForm.encode, .start (env.declare ⟨g.name, params⟩)) := means.meaning
  have hid := ((identifies small).redefined hbound (UInt32.ofNat params.length) Expression.null).1
  rw [defineText_eq, definition]
  simp only [sound, hread]
  change (Except.ok _, ((env.declare ⟨g.name, params⟩).define g.name (UInt32.ofNat params.length)
    t.normalForm.encode).2) = _
  rw [hid, define_declare env ⟨g.name, params⟩, hargc]

/-- **Printed bodies can be defined again.** A function that a text has defined, and that is still what
its name finds after any commands, is defined again by its name, as many parameters as it has and its
printed body: the text is accepted, the function keeps its identifier and its number of parameters, and
its body becomes the one that printed expressions are read back as. -/
theorem defineText_printed {C : Combinators} {R : Renderer Style} (readerLawful : C.Lawful)
    (rendererLawful : R.Lawful) (hdefined : start.defineTextBy C text = (.ok id, declared))
    (short : text.length ≤ UInt32.size) (hg : declared.function? id = some g)
    (commands : List FunctionCommand)
    (small : (declared.performAllBy C commands).functionCount < UInt32.size)
    (hkept : (declared.performAllBy C commands).function? id = some g)
    (hbound : (declared.performAllBy C commands).functionId? g.name = some id) {params : List String}
    (restorable : g.Restorable (declared.performAllBy C commands) params) :
    ∃ (t : Term) (after : Environment), t.Fits ∧ g.body = t.encode ∧
      (declared.performAllBy C commands).defineTextBy C ((Heading.mk g.name params).text
        ++ g.body.textBy R (declared.performAllBy C commands)) = (.ok id, after) ∧
      after.functionId? g.name = some id ∧
      after.function? id = some ⟨g.name, g.argc, t.normalForm.encode⟩ ∧
      (declared.performAllBy C commands).Updates after
        ⟨⟨g.name, g.argc, t.normalForm.encode⟩, true⟩ ∧
      after.slots = (declared.performAllBy C commands).slots := by
  rw [performAllBy_eq readerLawful] at small hkept hbound restorable ⊢
  rw [defineTextBy_eq_ok_iff readerLawful] at hdefined
  have small' := Nat.lt_of_le_of_lt (functionCount_performAll commands declared) small
  obtain ⟨t, defined⟩ := exists_definedAs hdefined small' short hg
  have legible := legible_of_restorable defined commands restorable
  have updates := (declared.performAll commands).updates_define
    ⟨g.name, g.argc, t.normalForm.encode⟩
  refine ⟨t, _, defined.fits, defined.body, ?_, ?_, ?_, updates, slots_define ..⟩
  · rw [defineTextBy_eq_ok_iff readerLawful, defined.body]
    exact defineText_of_legible small hbound hkept defined.name
      (fun p hp => (restorable.plain p hp).1) restorable.distinct restorable.count defined.fits
      legible rendererLawful Expression.anyWidth
  · exact ((identifies small).redefined hbound _ _).2
  · have hid := ((identifies small).redefined hbound g.argc t.normalForm.encode).1
    rw [define_fst] at hid
    rw [← hid]
    exact updates.rebinds.function?_self small

end

def summation : Environment where
  slots := #[⟨some "i", 1.0⟩]
  entries := #[⟨⟨"h", 1, Expression.arg 0⟩, true⟩]

/-- A sum of calls, a literal with a sign, a call of the function itself and an infinity. -/
def recursionText : String :=
  "f(n) = sum(i, 0, n, h(i) * -2) + if(n, f(n - 1), -inf)"

def recursionBody : Term :=
  .binary .add
    (.loop .sum ⟨0⟩ (.const 0.0) (.arg 0) (.binary .mul (.call ⟨0⟩ [.ref ⟨0⟩]) (.const (-2.0))))
    (.branch (.arg 0) (.call ⟨1⟩ [.binary .sub (.arg 0) (.const 1.0)])
      (.unary .neg (.const infinity)))

def recursion : Function where
  name := "f"
  argc := 1
  body := recursionBody.encode

def recursive : Environment :=
  { summation with entries := summation.entries.push ⟨recursion, true⟩ }

theorem defineText_recursionText : summation.defineText recursionText = (.ok ⟨1⟩, recursive) := by
  decide +kernel

def otherName : List FunctionCommand :=
  [.setSlots #[⟨some "k", 5.0⟩], .defineText "g(x) = f(x)", .remove "g"]

def renamed : Environment where
  slots := #[⟨some "k", 5.0⟩]
  entries := recursive.entries.push ⟨⟨"g", 0, Expression.null⟩, false⟩

theorem performAllBy_otherName : recursive.performAllBy reader otherName = renamed := by
  decide +kernel

theorem restorable_recursion : recursion.Restorable renamed ["m"] := by
  have hnodes : recursion.body.nodes = #[.op (.binary .add), .op (.fold .sum), .ref ⟨0⟩, .const 0.0,
      .arg 0, .opening 5, .op (.binary .mul), .call ⟨0⟩ 1, .ref ⟨0⟩, .const (-2.0), .closing 5,
      .op .branch, .arg 0, .opening 5, .call ⟨1⟩ 1, .op (.binary .sub), .arg 0, .const 1.0,
      .closing 5, .opening 3, .op (.unary .neg), .const infinity, .closing 3] := by
    decide +kernel
  have hnamed : renamed.IsNamed ⟨0⟩ := ⟨"k", rfl, by decide +kernel, by decide, by decide⟩
  have hvariable : Term.variableName renamed ⟨0⟩ = "k" := rfl
  have honly : ∀ a, .ref a ∈ recursion.body.nodes → a = ⟨0⟩ := by simp [hnodes]
  refine ⟨fun f argc hcall => ?_, fun a ha => ?_, rfl, by decide, fun p hp => ?_,
    fun x _ => ⟨fun _ => by decide, fun _ => by decide⟩⟩
  · have hcalls : f = ⟨0⟩ ∧ argc = 1 ∨ f = ⟨1⟩ ∧ argc = 1 := by simpa [hnodes] using hcall
    rcases hcalls with ⟨rfl, rfl⟩ | ⟨rfl, rfl⟩
    · exact ⟨⟨"h", 1, .arg 0⟩, rfl, by decide +kernel, rfl⟩
    · exact ⟨recursion, rfl, by decide +kernel, rfl⟩
  · rw [honly a ha, hvariable]
    exact ⟨hnamed, by decide +kernel⟩
  · rw [List.mem_singleton.1 hp]
    refine ⟨by decide, by decide +kernel, fun a ha => ?_⟩
    rw [honly a ha, hvariable]
    decide

/-- The body is in the form that it is read back in. -/
theorem defineText_printed_recursion :
    summation.defineText recursionText = (.ok ⟨1⟩, recursive) ∧
    recursive.performAllBy reader otherName = renamed ∧
    ∃ after : Environment,
      renamed.defineText ((Heading.mk "f" ["m"]).text ++ recursion.body.text renamed)
        = (.ok ⟨1⟩, after) ∧
      after.function? ⟨1⟩ = some recursion := by
  have hlater := performAllBy_otherName
  obtain ⟨t, after, fits, hbody, hagain, -, hfunction, -⟩ :=
    defineText_printed reader_lawful Document.renderer_lawful defineText_recursionText (by decide)
      (g := recursion) rfl otherName
      (by rw [hlater]; decide) (by rw [hlater]; rfl) (by rw [hlater]; decide +kernel)
      (hlater ▸ restorable_recursion)
  rw [hlater] at hagain
  have ht : t = recursionBody := by
    have hdecode := Term.decode_encode fits
    rw [← hbody, recursion, Term.decode_encode (Term.fits_of_size (by decide))] at hdecode
    exact (Except.ok.inj hdecode).symm
  have hnormal : t.normalForm = recursionBody := by
    have hzero : ((0.0 : Float).isInf && signBit 0.0) = false := by decide
    have hone : ((1.0 : Float).isInf && signBit 1.0) = false := by decide
    have htwo : ((-2.0 : Float).isInf && signBit (-2.0)) = false := by decide
    have hword : isPlain infinity = false := by decide
    have hunsigned : (infinity.isInf && signBit infinity) = false := by decide
    rw [ht]
    simp only [recursionBody, Term.normalForm, Term.normalForms, hzero, hone, htwo, hword, hunsigned,
      Bool.false_eq_true, if_false]
  rw [hnormal] at hfunction
  exact ⟨defineText_recursionText, hlater, after, hagain, hfunction⟩

/-- A parameter that is named like an infinity in the body takes its place. -/
theorem infinity_taken_for_parameter :
    Token.isIdentifier "inf" = true ∧ Phrase.position? "inf" = none ∧
    (empty.defineText "f(x) = x + inf").2.function? ⟨0⟩
      = some ⟨"f", 1, (Term.binary .add (.arg 0) (.const infinity)).encode⟩ ∧
    (Term.binary .add (.arg 0) (.const infinity)).normalForm
      = Term.binary .add (.arg 0) (.const infinity) ∧
    (Heading.mk "f" ["inf"]).text ++ (Term.binary .add (.arg 0) (.const infinity)).encode.text
      (empty.defineText "f(x) = x + inf").2 = "f(inf) = _0 + inf" ∧
    ((empty.defineText "f(x) = x + inf").2.defineText "f(inf) = _0 + inf").1 = .ok ⟨0⟩ ∧
    ((empty.defineText "f(x) = x + inf").2.defineText "f(inf) = _0 + inf").2.function? ⟨0⟩
      = some ⟨"f", 1, (Term.binary .add (.arg 0) (.arg 0)).encode⟩ ∧
    (Term.binary .add (.arg 0) (.arg 0)).encode
      ≠ (Term.binary .add (.arg 0) (.const infinity)).encode := by
  have hunsigned : (infinity.isInf && signBit infinity) = false := by decide
  refine ⟨by decide, by decide +kernel, by decide +kernel, ?_, by decide +kernel, by decide +kernel,
    by decide +kernel, by decide +kernel⟩
  simp only [Term.normalForm, hunsigned, Bool.false_eq_true, if_false]

end Environment

end PrefixCalculus
