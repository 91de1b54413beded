import PrefixCalculus.Phrase.Definition
import PrefixCalculus.Proofs.PhraseMeaning
set_option autoImplicit false

/-!
What the text of a definition does to an environment, whatever the text. The function is bound before
its body is read and put back if that fails. Main statement: a text that is refused leaves every
function and every variable as it was, and one that is accepted changes one name and its place, which
holds the term that the body means.
-/

namespace PrefixCalculus

def definitionOf (text : String) : Except TextError (Heading × Phrase) :=
  tokensOf text >>= reader.readDefinition

theorem definitionOf_eq_ok_iff {text : String} {h : Heading} {body : Phrase} :
    definitionOf text = .ok (h, body) ↔
      ∃ us, tokensOf text = .ok (h.tokens ++ us) ∧ Phrase.Denotes us body := by
  rw [definitionOf]
  cases tokensOf text with
  | error e => simp [bind, Except.bind]
  | ok ts =>
    simp only [bind, Except.bind, Combinators.readDefinition_eq_ok_iff reader_lawful, Except.ok.injEq]

theorem complete_of_definition {text : String} {h : Heading} {body : Phrase}
    (definition : definitionOf text = .ok (h, body)) : body.Complete := by
  obtain ⟨us, -, hbody⟩ := definitionOf_eq_ok_iff.1 definition
  exact hbody.complete

namespace Environment

/-- Names find what they found, and no place that was there has changed. -/
structure KeepsFunctions (env after : Environment) : Prop where
  functionId? : ∀ name, after.functionId? name = env.functionId? name
  function? : ∀ f, f.index.toNat < env.functionCount → after.function? f = env.function? f

theorem KeepsFunctions.of_entries {env after : Environment} (h : after.entries = env.entries) :
    env.KeepsFunctions after where
  functionId? := (SameSignatures.of_entries h).functionId?
  function? f _ := by rw [Environment.function?, Environment.function?, h]

section

variable {env mid after : Environment} {function previous : Function}

theorem Updates.keepsFunctions_of_new {entry : Entry} (h : env.Updates after entry)
    (hbound : entry.bound = false) (hnew : env.entryOf? entry.function.name = none) :
    env.KeepsFunctions after where
  functionId? name := by
    rw [Environment.functionId?, Environment.functionId?]
    by_cases hname : name = entry.function.name
    · rw [hname, h.entryOf?_of_new hbound hnew, hnew]
    · rw [h.entryOf?_of_ne hname]
  function? f hf := by
    rw [Environment.function?, Environment.function?, h.entries_of_ne]
    rw [placeFor_of_new hnew]
    exact Nat.ne_of_lt hf

theorem Updates.keepsFunctions_of_old {argc : UInt32} {body : Expression} {name : String}
    (h : env.Updates after ⟨⟨name, argc, body⟩, true⟩)
    (hprevious : env.functionNamed? name = some previous) (hargc : previous.argc = argc)
    (hbody : previous.body = body) : env.KeepsFunctions after := by
  obtain ⟨id, hid, hfound⟩ := Option.bind_eq_some_iff.1 hprevious
  obtain ⟨i, hi, rfl⟩ := Option.map_eq_some_iff.1 hid
  have hplace : env.placeFor name = i := placeFor_of_entryOf? hi
  constructor
  · intro other
    by_cases hother : other = name
    · rw [hother, h.functionId?_self, hid, hplace]
    · exact h.functionId?_of_ne hother
  · intro f _
    rw [function?, function?, h f.index.toNat]
    split
    · rename_i hf
      -- The identifier of the place is within 32 bits, so it is the function found there by name.
      have hf : f.index.toNat = i := hf.trans hplace
      have hid : f = ⟨UInt32.ofNat i⟩ := by rw [← hf, UInt32.ofNat_toNat]
      obtain ⟨entry, hentry, -, hname⟩ := binds_of_entryOf? hi
      rw [← hid, function?, hf, hentry, Option.map_some, Option.some.injEq] at hfound
      rw [hf, hentry, Option.map_some, Option.map_some, ← hargc, ← hbody, ← hfound, ← hname]
    · rfl

theorem exists_functionNamed? {name : String} {i : Nat} (h : env.entryOf? name = some i) :
    ∃ function, env.functionNamed? name = some function := by
  have hlt := lt_functionCount_of_binds (binds_of_entryOf? h)
  have hle : (UInt32.ofNat i).toNat ≤ i := Nat.mod_le ..
  rw [functionNamed?, functionId?, h, Option.map_some, Option.bind_some, function?,
    Array.getElem?_eq_getElem (Nat.lt_of_le_of_lt hle hlt)]
  exact ⟨_, rfl⟩

/-- What is put back after a definition: an unbound entry for a name that found nothing, and a bound
one for a name that found something; in both cases no function is changed. -/
theorem Updates.putBack (h : env.Updates mid ⟨function, true⟩) :
    ∃ entry, env.Updates (mid.putBack function.name (env.functionNamed? function.name)) entry ∧
      entry.function.name = function.name ∧
      (entry.bound = false → env.entryOf? function.name = none) ∧
      env.KeepsFunctions (mid.putBack function.name (env.functionNamed? function.name)) := by
  cases hold : env.entryOf? function.name with
  | none =>
    obtain ⟨after, hafter⟩ : ∃ after, mid.remove? function.name = some after := by
      rw [remove?, h.entryOf?_self rfl]
      exact ⟨_, rfl⟩
    have hback : mid.putBack function.name (env.functionNamed? function.name) = after := by
      rw [functionNamed?, functionId?, hold, Option.map_none, Option.bind_none,
        Environment.putBack, hafter, Option.getD_some]
    have hupdates := h.trans rfl (updates_remove? hafter) rfl
    rw [hback]
    exact ⟨_, hupdates, rfl, fun _ => rfl, hupdates.keepsFunctions_of_new rfl hold⟩
  | some i =>
    obtain ⟨previous, hprevious⟩ := exists_functionNamed? hold
    have hupdates := h.trans rfl
      (mid.updates_define ⟨function.name, previous.argc, previous.body⟩) rfl
    rw [hprevious]
    exact ⟨_, hupdates, rfl, fun hbound => Bool.noConfusion hbound,
      hupdates.keepsFunctions_of_old hprevious rfl rfl⟩

end

/-! Texts -/

/-- The environment in which the body of a definition is read: the function is bound, without a body. -/
def declare (env : Environment) (h : Heading) : Environment :=
  (env.define h.name (UInt32.ofNat h.params.length) Expression.null).2

def readBody (env : Environment) (h : Heading) (body : Phrase) : Expression × Reading :=
  body.meaning ⟨h.params, true⟩ (.start (env.declare h))

inductive DefineText (env : Environment) (text : String) :
    Except TextError FunctionId × Environment → Prop
  | refused (error : TextError)
    (h : ∀ h body, definitionOf text = .ok (h, body) → h.diagnostics ≠ []) :
    DefineText env text (.error error, env)
  | failed {h : Heading} {body : Phrase} {error : TextError}
    (definition : definitionOf text = .ok (h, body)) (sound : h.diagnostics = [])
    (fault : (env.readBody h body).2.error? = some error) :
    DefineText env text (.error error,
      (env.readBody h body).2.env.putBack h.name (env.functionNamed? h.name))
  | accepted {h : Heading} {body : Phrase} (definition : definitionOf text = .ok (h, body))
    (sound : h.diagnostics = []) (faultless : (env.readBody h body).2.error? = none) :
    DefineText env text (.ok ⟨UInt32.ofNat (env.placeFor h.name)⟩,
      ((env.readBody h body).2.env.define h.name (UInt32.ofNat h.params.length)
        (env.readBody h body).1).2)

theorem defineText_eq (env : Environment) (text : String) :
    env.defineText text = match definitionOf text with
      | .error e => (.error e, env)
      | .ok (h, body) =>
        match h.diagnostics with
        | d :: ds => (.error (.diagnostics (d :: ds)), env)
        | [] =>
          match (env.readBody h body).2.error? with
          | some error => (.error error,
              (env.readBody h body).2.env.putBack h.name (env.functionNamed? h.name))
          | none => (.ok (env.define h.name (UInt32.ofNat h.params.length) Expression.null).1,
              ((env.readBody h body).2.env.define h.name (UInt32.ofNat h.params.length)
                (env.readBody h body).1).2) :=
  rfl

/-- All parsers that keep to the grammar do the same with the text of a definition; they may find other
things wrong in a text that is none. -/
theorem defineTextBy_cases {C : Combinators} (lawful : C.Lawful) (env : Environment) (text : String) :
    env.defineTextBy C text = env.defineText text ∨
      (∃ e e', env.defineTextBy C text = (.error e, env) ∧ env.defineText text = (.error e', env)) := by
  rw [defineText, defineTextBy, defineTextBy]
  cases tokensOf text with
  | error e => exact .inl rfl
  | ok ts =>
    simp only [bind, Except.bind]
    cases hread : C.readDefinition ts with
    | ok result =>
      have hgrammar := (Combinators.readDefinition_eq_ok_iff lawful).1 hread
      rw [(Combinators.readDefinition_eq_ok_iff reader_lawful).2 hgrammar]
      exact .inl rfl
    | error e =>
      cases hread' : reader.readDefinition ts with
      | error e' => exact .inr ⟨e, e', rfl, rfl⟩
      | ok result =>
        have hgrammar := (Combinators.readDefinition_eq_ok_iff reader_lawful).1 hread'
        cases hread.symm.trans ((Combinators.readDefinition_eq_ok_iff lawful).2 hgrammar)

theorem defineTextBy_eq_ok_iff {C : Combinators} (lawful : C.Lawful) {env after : Environment}
    {text : String} {id : FunctionId} :
    env.defineTextBy C text = (.ok id, after) ↔ env.defineText text = (.ok id, after) := by
  rcases env.defineTextBy_cases lawful text with h | ⟨e, e', h, h'⟩
  · rw [h]
  · rw [h, h']
    exact ⟨nofun, nofun⟩

theorem snd_defineTextBy {C : Combinators} (lawful : C.Lawful) (env : Environment) (text : String) :
    (env.defineTextBy C text).2 = (env.defineText text).2 := by
  rcases env.defineTextBy_cases lawful text with h | ⟨e, e', h, h'⟩
  · rw [h]
  · rw [h, h']

theorem defineText_cases (env : Environment) (text : String) :
    DefineText env text (env.defineText text) := by
  rw [defineText_eq]
  split
  next e hdefinition => exact .refused e fun h body h' => by rw [hdefinition] at h'; cases h'
  next h body hdefinition =>
    split
    next d ds hd =>
      refine .refused _ fun h' body' h'' => ?_
      rw [hdefinition] at h''
      cases h''
      rw [hd]
      exact List.cons_ne_nil d ds
    next hd =>
      split
      next error hfault => exact .failed hdefinition hd hfault
      next hfaultless =>
        rw [define_fst]
        exact .accepted hdefinition hd hfaultless

theorem adds_define (env : Environment) (name : String) (argc : UInt32) (body : Expression) :
    env.Adds (env.define name argc body).2 :=
  .of_slots (slots_define argc body)

section

variable (env : Environment) (h : Heading) {body : Phrase} (complete : body.Complete)
include complete

theorem yields_readBody :
    Phrase.Yields ⟨h.params, true⟩ body (.start (env.declare h)) (env.readBody h body) :=
  Phrase.yields_meaning complete _

theorem adds_readBody : env.Adds (env.readBody h body).2.env :=
  (env.adds_define ..).trans (env.yields_readBody h complete).grows.names

theorem updates_readBody : env.Updates (env.readBody h body).2.env
    ⟨⟨h.name, UInt32.ofNat h.params.length, Expression.null⟩, true⟩ :=
  (env.updates_define ⟨h.name, _, _⟩).of_entries (env.yields_readBody h complete).grows.functions

omit complete in
theorem slots_putBack (name : String) (previous : Option Function) :
    (env.putBack name previous).slots = env.slots := by
  cases previous with
  | some previous => exact slots_define ..
  | none =>
    rw [putBack]
    cases h : env.remove? name with
    | none => rfl
    | some after => exact slots_remove? h

end

theorem kept_of_defineText_error {env after : Environment} {text : String} {error : TextError}
    (hafter : env.defineText text = (.error error, after)) :
    env.KeepsFunctions after ∧ env.KeepsVariables after ∧
      ((∀ h body, definitionOf text = .ok (h, body) → h.diagnostics ≠ []) → after = env) := by
  have hcases := env.defineText_cases text
  rw [hafter] at hcases
  cases hcases with
  | refused => exact ⟨.of_entries rfl, (Adds.refl env).keepsVariables, fun _ => rfl⟩
  | @failed h body _ definition sound fault =>
    have complete := complete_of_definition definition
    obtain ⟨-, -, -, -, hfunctions⟩ := (env.updates_readBody h complete).putBack
    refine ⟨hfunctions, Adds.keepsVariables ?_, ?_⟩
    · exact (env.adds_readBody h complete).trans (.of_slots (slots_putBack ..))
    · exact fun hno => absurd sound (hno h body definition)

theorem exists_of_defineText_ok {env after : Environment} {text : String} {id : FunctionId}
    (hafter : env.defineText text = (.ok id, after)) :
    ∃ h body t, definitionOf text = .ok (h, body) ∧ h.diagnostics = [] ∧
      Phrase.Means ⟨h.params, true⟩ after body t ∧
      env.Updates after ⟨⟨h.name, UInt32.ofNat h.params.length, t.encode⟩, true⟩ ∧
      env.Rebinds after ⟨h.name, UInt32.ofNat h.params.length, t.encode⟩ id ∧
      env.KeepsVariables after := by
  have hcases := env.defineText_cases text
  rw [hafter] at hcases
  cases hcases with
  | @accepted h body definition sound faultless =>
    have complete := complete_of_definition definition
    obtain ⟨t, ht, he⟩ := (env.yields_readBody h complete).term faultless
    have hlater := (env.readBody h body).2.env.updates_define
      ⟨h.name, UInt32.ofNat h.params.length, (env.readBody h body).1⟩
    have hwhole := (env.updates_readBody h complete).trans rfl hlater rfl
    have hvariables := (env.readBody h body).2.env.adds_define h.name
      (UInt32.ofNat h.params.length) (env.readBody h body).1
    rw [he] at hlater hwhole hvariables ⊢
    refine ⟨h, body, t, definition, sound, ?_, hwhole, hwhole.rebinds, Adds.keepsVariables ?_⟩
    · -- The body was read while its function had no body yet, but the same parameters.
      exact ht.mono hvariables ((env.updates_readBody h complete).sameSignatures hlater rfl rfl)
    · exact (env.adds_readBody h complete).trans hvariables

/-- **Definitions are all or nothing.** A refused text leaves every function and every variable as it
was, and the whole environment if it is no definition or nothing can be bound to its heading. An
accepted text binds the name, in the place it had or in one that was never used, to a function with
the parameters of the heading and the term that the body means; nothing else is bound or changed. -/
theorem defineText_all_or_nothing (env : Environment) (text : String) :
    (∀ error after, env.defineText text = (.error error, after) →
      env.KeepsFunctions after ∧ env.KeepsVariables after ∧
        ((∀ h body, definitionOf text = .ok (h, body) → h.diagnostics ≠ []) → after = env)) ∧
    ∀ id after, env.defineText text = (.ok id, after) →
      ∃ h body t, definitionOf text = .ok (h, body) ∧ h.diagnostics = [] ∧
        Phrase.Means ⟨h.params, true⟩ after body t ∧
        env.Updates after ⟨⟨h.name, UInt32.ofNat h.params.length, t.encode⟩, true⟩ ∧
        env.Rebinds after ⟨h.name, UInt32.ofNat h.params.length, t.encode⟩ id ∧
        env.KeepsVariables after :=
  ⟨fun _ _ => kept_of_defineText_error, fun _ _ => exists_of_defineText_ok⟩

/-- A variable `x` and the function `f(x) = x`. -/
def identityStore : Environment where
  slots := #[⟨some "x", 2.0⟩]
  entries := #[⟨⟨"f", 1, Expression.arg 0⟩, true⟩]

def factorialText : String :=
  "f(n) = if(n, n * f(n - 1), 1)"

def factorial : Term :=
  .branch (.arg 0) (.binary .mul (.arg 0) (.call ⟨0⟩ [.binary .sub (.arg 0) (.const 1.0)])) (.const 1.0)

/-- A body that calls what is not there leaves `f` with its one parameter, and the new variable `z`; a
body that calls itself is accepted, in the same place. -/
theorem defineText_identityStore :
    (identityStore.KeepsFunctions (identityStore.defineText "f(x, y) = z + g(y)").2 ∧
      (identityStore.defineText "f(x, y) = z + g(y)").2.lookup? "z" = some ⟨1⟩) ∧
    ∃ after, identityStore.defineText factorialText = (.ok ⟨0⟩, after) ∧
      identityStore.Updates after ⟨⟨"f", 1, factorial.encode⟩, true⟩ := by
  have pair (result : Except TextError FunctionId × Environment) (outcome) (h : result.1 = outcome) :
      result = (outcome, result.2) := by
    rw [← h]
  have hrefused := pair (identityStore.defineText "f(x, y) = z + g(y)")
    (.error (.unknownFunction "g")) (by decide +kernel)
  have haccepted := pair (identityStore.defineText factorialText) (.ok ⟨0⟩) (by decide +kernel)
  refine ⟨⟨?_, by decide +kernel⟩, _, haccepted, ?_⟩
  · exact ((defineText_all_or_nothing identityStore _).1 _ _ hrefused).1
  · obtain ⟨h, body, t, definition, -, -, updates, rebinds, -⟩ :=
      (defineText_all_or_nothing identityStore _).2 _ _ haccepted
    have hheading : (definitionOf factorialText).map Prod.fst = .ok ⟨"f", ["n"]⟩ := by
      decide +kernel
    rw [definition] at hheading
    cases hheading
    have hfunction : (identityStore.defineText factorialText).2.function? ⟨0⟩
        = some ⟨"f", 1, factorial.encode⟩ := by
      decide +kernel
    rw [rebinds.function?_self (by decide +kernel)] at hfunction
    have hbody : t.encode = factorial.encode := by
      injection hfunction with hfunction
      injection hfunction
    exact hbody ▸ updates

end Environment

end PrefixCalculus
