import PrefixCalculus.Proofs.OpenNodes
import PrefixCalculus.Proofs.TextLength
set_option autoImplicit false

/-!
What accepted texts refer to. What a phrase means has an address only where a name does, a parameter
only where the function has one, and a call only of a function that is found by its name and takes as
many arguments. Main statement: an accepted text gives a valid expression of which all that holds for
the environment that is left, without parameters for an expression and with those of the heading for
the body of a definition, which may call itself.
-/

namespace PrefixCalculus

/-- A variable has a name, a parameter is among so many, and a function that is called is found by a
name and takes so many arguments. -/
def Node.InScope (env : Environment) (params : Nat) : Node → Prop
  | .ref a => ∃ name, env.lookup? name = some a
  | .arg i => i.toNat < params
  | .call f argc => ∃ name function, env.functionId? name = some f ∧ env.function? f = some function ∧
      function.argc = argc
  | _ => True

structure Expression.WellScoped (env : Environment) (params : Nat) (e : Expression) : Prop where
  not_null : e.isNull = false
  valid : e.size ≤ UInt32.size → e.check = .ok ()
  nodes : ∀ n ∈ e.nodes, n.InScope env params

section

variable {env : Environment} {params : Nat}

theorem inScope_of_openNodes {e : Expression}
    (h : ∀ n ∈ e.openNodes, n.InScope env params) : ∀ n ∈ e.nodes, n.InScope env params := by
  intro n hn
  cases hopen : n.isOpen with
  | true => exact h n (Expression.mem_openNodes.2 ⟨hn, hopen⟩)
  | false => cases n <;> trivial

theorem Environment.exists_function?_of_functionId? {name : String} {f : FunctionId}
    (h : env.functionId? name = some f) : ∃ function, env.function? f = some function := by
  obtain ⟨i, hi, -⟩ := Option.map_eq_some_iff.1 h
  obtain ⟨function, hfunction⟩ := env.exists_functionNamed? hi
  rw [functionNamed?, h, Option.bind_some] at hfunction
  exact ⟨function, hfunction⟩

/-! What a phrase means is in scope, rule by rule -/

variable {scope : Scope}

theorem Scope.Names.inScope {name : String} {t : Term} (h : scope.Names env name t) :
    ∀ n ∈ t.encode.openNodes, n.InScope env scope.params.length := by
  cases h with
  | @param i hi =>
    obtain ⟨hlt, -⟩ := List.idxOf?_eq_some_iff.1 hi
    have hle : (UInt32.ofNat i).toNat ≤ i := Nat.mod_le ..
    simpa [Node.InScope] using Nat.lt_of_le_of_lt hle hlt
  | position _ _ hlt => simpa [Node.InScope] using hlt
  | constant => simp
  | address _ ha => simpa [Node.InScope] using ⟨name, ha⟩

namespace Phrase

theorem inScope_call {f : String} {id : FunctionId} {ps : List Phrase} {ts : List Term}
    (hid : env.functionId? f = some id)
    (hargc : ps.length = (((env.function? id).map Function.argc).getD 0).toNat)
    (h : MeansAll scope env ps ts) :
    Node.InScope env params (.call id (UInt32.ofNat ts.length)) := by
  obtain ⟨function, hfunction⟩ := Environment.exists_function?_of_functionId? hid
  refine ⟨f, function, hid, hfunction, ?_⟩
  rw [hfunction, Option.map_some, Option.getD_some] at hargc
  rw [← (meansAll_iff.1 h).length_eq, hargc, UInt32.ofNat_toNat]

mutual

theorem Means.inScope : ∀ {p : Phrase} {t : Term}, Means scope env p t →
    ∀ n ∈ t.encode.openNodes, n.InScope env scope.params.length
  | _, _, .number _ | _, _, .literal _ => by simp
  | _, _, .name h => h.inScope
  | _, _, .neg _ h | _, _, .not h | _, _, .log10 _ h | _, _, .unaryCall _ h => by
    simpa only [Term.openNodes_unary] using h.inScope
  | _, _, .binary hp hq | _, _, .logBase _ hp hq | _, _, .binaryCall _ hp hq => by
    simpa only [Term.openNodes_binary, List.forall_mem_append] using ⟨hp.inScope, hq.inScope⟩
  | _, _, .branch _ hc hp hq => by
    simpa only [Term.openNodes_branch, List.forall_mem_append] using
      ⟨⟨hc.inScope, hp.inScope⟩, hq.inScope⟩
  | _, _, .loop _ _ ha hl hu hb => by
    simpa only [Term.openNodes_loop, List.forall_mem_cons, List.forall_mem_append] using
      ⟨⟨_, ha⟩, ⟨hl.inScope, hu.inScope⟩, hb.inScope⟩
  | _, _, .call _ hid hargc h => by
    simpa only [Term.openNodes_call, List.forall_mem_cons] using
      ⟨inScope_call hid hargc h, h.inScope⟩

theorem MeansAll.inScope : ∀ {ps : List Phrase} {ts : List Term}, MeansAll scope env ps ts →
    ∀ n ∈ ts.flatMap fun t => t.encode.openNodes, n.InScope env scope.params.length
  | _, _, .nil => by simp
  | _, _, .cons h hs => by
    simpa only [List.flatMap_cons, List.forall_mem_append] using ⟨h.inScope, hs.inScope⟩

end

theorem Means.wellScoped {p : Phrase} {t : Term} (h : Means scope env p t) :
    t.encode.WellScoped env scope.params.length where
  not_null := t.isNull_encode
  valid small := Term.check_encode (Term.fits_of_size (by rwa [← t.size_encode]))
  nodes := inScope_of_openNodes h.inScope

end Phrase

end

namespace Environment

theorem wellScoped_of_parse_ok {env after : Environment} {text : String} {e : Expression}
    (h : env.parse text = (.ok e, after)) : e.WellScoped after 0 ∧ e.size ≤ text.length := by
  obtain ⟨p, t, phrase, ht, rfl⟩ := exists_of_parse_ok h
  exact ⟨ht.wellScoped, t.size_encode.trans_le (Phrase.size_le_of_text phrase ht)⟩

theorem wellScoped_of_defineText_ok {env after : Environment} {text : String} {id : FunctionId}
    (hafter : env.defineText text = (.ok id, after)) :
    ∃ h phrase body, definitionOf text = .ok (h, phrase) ∧ after.functionId? h.name = some id ∧
      env.Updates after ⟨⟨h.name, UInt32.ofNat h.params.length, body⟩, true⟩ ∧
      body.WellScoped after h.params.length ∧ h.params.length + body.size < text.length := by
  obtain ⟨h, phrase, t, definition, -, ht, updates, rebinds, -⟩ := exists_of_defineText_ok hafter
  refine ⟨h, phrase, t.encode, definition, rebinds.functionId?_self, updates, ht.wellScoped, ?_⟩
  have hsize : t.encode.size ≤ phrase.length := t.size_encode.trans_le ht.size_le
  have hlength := length_of_definition definition
  omega

/-- **What is accepted is valid and in scope.** The expression of a text is not null, it is valid, no
parameter occurs in it, every address in it, those of loop variables included, is that of a name, and
every call gives a function that a name finds as many arguments as it takes. The same holds of the body
that a definition stores, of which the parameters are among those of the heading, with the function
itself and its number of parameters in the environment already. A valid expression has spans within 32
bits; no text of so many characters goes beyond them. -/
theorem accepted_wellScoped (env : Environment) (text : String) :
    (∀ e after, env.parse text = (.ok e, after) → e.WellScoped after 0 ∧ e.size ≤ text.length) ∧
    ∀ id after, env.defineText text = (.ok id, after) →
      ∃ h phrase body, definitionOf text = .ok (h, phrase) ∧ after.functionId? h.name = some id ∧
        env.Updates after ⟨⟨h.name, UInt32.ofNat h.params.length, body⟩, true⟩ ∧
        body.WellScoped after h.params.length ∧ h.params.length + body.size < text.length :=
  ⟨fun _ _ => wellScoped_of_parse_ok, fun _ _ => wellScoped_of_defineText_ok⟩

/-- A loop over a new variable with a call in its body, and the body of a function that calls itself. -/
theorem accepted_wellScoped_identityStore :
    (∃ e after, identityStore.parse "sum(i, 1, x, f(i) + j)" = (.ok e, after) ∧
      e.WellScoped after 0 ∧ e.check = .ok ()) ∧
    ∃ after body, (identityStore.defineText "g(n) = if(n, n * g(n - 1), x)").2 = after ∧
      after.entries[1]? = some ⟨⟨"g", 1, body⟩, true⟩ ∧ body.WellScoped after 1 ∧
      body.check = .ok () := by
  constructor
  · have hok : (identityStore.parse "sum(i, 1, x, f(i) + j)").1.toBool = true := by decide +kernel
    have accepted := (accepted_wellScoped identityStore "sum(i, 1, x, f(i) + j)").1
    generalize identityStore.parse "sum(i, 1, x, f(i) + j)" = result at *
    obtain ⟨error | e, after⟩ := result
    · cases hok
    · obtain ⟨within, hsize⟩ := accepted e after rfl
      exact ⟨e, after, rfl, within, within.valid (hsize.trans (by decide))⟩
  · have hid : (identityStore.defineText "g(n) = if(n, n * g(n - 1), x)").1 = .ok ⟨1⟩ := by
      decide +kernel
    have hheading : (definitionOf "g(n) = if(n, n * g(n - 1), x)").map Prod.fst
        = .ok ⟨"g", ["n"]⟩ := by decide +kernel
    have hplace : identityStore.placeFor "g" = 1 := by decide +kernel
    have accepted := (accepted_wellScoped identityStore "g(n) = if(n, n * g(n - 1), x)").2
    generalize identityStore.defineText "g(n) = if(n, n * g(n - 1), x)" = result at *
    obtain ⟨outcome, after⟩ := result
    cases hid
    obtain ⟨h, phrase, body, definition, -, updates, within, hsize⟩ := accepted _ _ rfl
    rw [definition] at hheading
    cases hheading
    have hstored := updates.entries_self
    rw [hplace] at hstored
    refine ⟨after, body, rfl, hstored, within, within.valid ?_⟩
    exact (Nat.le_of_lt (Nat.lt_of_le_of_lt (Nat.le_add_left ..) hsize)).trans (by decide)

end Environment

end PrefixCalculus
