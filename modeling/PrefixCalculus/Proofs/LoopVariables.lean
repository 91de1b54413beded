import PrefixCalculus.Numeric.Series
import PrefixCalculus.Proofs.DefinitionText
import PrefixCalculus.Proofs.Instantiation
import PrefixCalculus.Proofs.Unrolling
set_option autoImplicit false

/-!
The variables of loops, from the text to their values. Main statement: a loop of the text is a loop
over the address of its variable, at the same position of the term, and where its body has the name
the term reads that address, so that it reads the index; except if the name is also that of a constant
or, in a function, of a parameter by its position, which are then read in its place.
-/

namespace PrefixCalculus

/-! Positions -/

namespace Phrase

/-- The phrases that a phrase is put together from. The name of a loop's variable is no phrase of its
own, nor is the number of a negative literal. -/
def parts : Phrase → List Phrase
  | number _ | name _ | neg (number _) | error => []
  | neg p | not p => [p]
  | binary _ p q => [p, q]
  | call f args => if (foldNamed? f).isSome then args.tail else args

def at? : Phrase → List Nat → Option Phrase
  | p, [] => some p
  | p, i :: path => (p.parts[i]?).bind fun q => q.at? path

end Phrase

namespace Term

def parts : Term → List Term
  | literal _ | ref _ | arg _ => []
  | unary _ t => [t]
  | binary _ a b => [a, b]
  | branch c a b => [c, a, b]
  | loop _ _ lower upper body => [lower, upper, body]
  | call _ args => args

def at? : Term → List Nat → Option Term
  | t, [] => some t
  | t, i :: path => (t.parts[i]?).bind fun s => s.at? path

end Term

namespace Phrase

variable {scope : Scope} {env : Environment}

theorem foldNamed?_of_operatorNamed? {f : String} {op : Operator}
    (h : operatorNamed? f = some op) : foldNamed? f = none := by
  unfold foldNamed?
  split
  · cases h
  · cases h
  · rfl

theorem parts_call {f : String} (hf : foldNamed? f = none) (args : List Phrase) :
    (call f args).parts = args := by
  rw [parts, hf]
  rfl

theorem Means.parts {p : Phrase} {t : Term} (h : Means scope env p t) :
    List.Forall₂ (Means scope env) p.parts t.parts := by
  cases h with
  | number | literal => exact .nil
  | name h => cases h <;> exact .nil
  | @neg p t hp h =>
    have hparts : p.neg.parts = [p] := by
      cases p with
      | number x => exact absurd rfl (hp x)
      | _ => rfl
    rw [hparts]
    exact .cons h .nil
  | not h => exact .cons h .nil
  | binary hp hq => exact .cons hp (.cons hq .nil)
  | branch hf hc hp hq =>
    rw [hf]
    exact .cons hc (.cons hp (.cons hq .nil))
  | log10 hf h =>
    rw [hf]
    exact .cons h .nil
  | logBase hf hp hq =>
    rw [hf]
    exact .cons hp (.cons hq .nil)
  | loop hf _ _ hl hu hb =>
    rw [Phrase.parts, hf]
    exact .cons hl (.cons hu (.cons hb .nil))
  | unaryCall hf h =>
    rw [parts_call (foldNamed?_of_operatorNamed? hf)]
    exact .cons h .nil
  | binaryCall hf hp hq =>
    rw [parts_call (foldNamed?_of_operatorNamed? hf)]
    exact .cons hp (.cons hq .nil)
  | call hf _ _ h =>
    rw [parts_call hf.not_fold]
    exact meansAll_iff.1 h

/-- What stands at a position of a phrase means what stands there in the term. -/
theorem Means.at? {path : List Nat} : ∀ {p q : Phrase} {t : Term}, Means scope env p t →
    p.at? path = some q → ∃ s, t.at? path = some s ∧ Means scope env q s := by
  induction path with
  | nil =>
    intro p q t h hq
    cases hq
    exact ⟨t, rfl, h⟩
  | cons i path ih =>
    intro p q t h hq
    obtain ⟨p', hp', hq⟩ := Option.bind_eq_some_iff.1 hq
    obtain ⟨hi, rfl⟩ := List.getElem?_eq_some_iff.1 hp'
    have hi' : i < t.parts.length := h.parts.length_eq ▸ hi
    obtain ⟨s, hs, hmeans⟩ := ih (h.parts.get hi hi') hq
    exact ⟨s, by rw [Term.at?, List.getElem?_eq_getElem hi']; exact hs, hmeans⟩

theorem Means.of_loop {f v : String} {kind : Fold} (hf : foldNamed? f = some kind)
    {lower upper body : Phrase} {t : Term}
    (h : Means scope env (.call f [.name v, lower, upper, body]) t) :
    ∃ a l u b, t = .loop kind a l u b ∧ env.lookup? v = some a ∧ Means scope env body b := by
  cases h with
  | loop hf' _ ha _ _ hb =>
    cases hf.symm.trans hf'
    exact ⟨_, _, _, _, rfl, ha, hb⟩
  | call hf' => exact absurd (hf.symm.trans hf'.not_fold) (Option.some_ne_none _)

end Phrase

namespace Scope.Names

variable {scope : Scope} {env : Environment} {name : String} {t : Term}

/-- A name is read as a variable exactly if it is the name of nothing else. -/
theorem eq_ref_iff (h : scope.Names env name t) {a : Address} (ha : env.lookup? name = some a) :
    t = .ref a ↔ scope.IsVariable name := by
  constructor
  · rintro rfl
    cases h with | address free => exact free
  · exact fun free => h.unique (.address free ha)

end Scope.Names

section

variable [SpecialFunctions]

/-! Indices -/

namespace Term

section

variable {frame : Frame} {a : Address} {x : Float}

theorem hasValue_replace (t : Term) : ∀ {env : Environment} {v : Float}, env.value a = x →
    ((replace a (const x) t).HasValue frame env v ↔ t.HasValue frame env v) := by
  induction t using Term.induction with
  | literal y => exact fun _ => Iff.rfl
  | arg i => exact fun _ => Iff.rfl
  | ref b =>
    intro env v hx
    rw [replace]
    split
    · rename_i hb
      rw [hasValue_const, hasValue_ref, hb, hx]
    · rfl
  | unary op t ih =>
    intro env v hx
    simp only [replace, hasValue_unary, ih hx]
  | binary op s t hs ht =>
    intro env v hx
    simp only [replace, hasValue_binary, hs hx, ht hx]
  | branch c s t hc hs ht =>
    intro env v hx
    simp only [replace, hasValue_branch, hc hx, hs hx, ht hx]
  | loop kind b lower upper body hl hu hb =>
    intro env v hx
    rw [replace, hasValue_loop, hasValue_loop]
    refine exists_congr fun lo => and_congr (hl hx) ?_
    refine exists_congr fun hi => and_congr (hu hx) ?_
    cases LoopRange.ofBounds? lo hi with
    | none => rfl
    | some range =>
      -- a loop over the variable is left as it is; any other one keeps its value
      refine Joins.congr fun i _ y => ?_
      split
      · rfl
      · rename_i hne
        exact hb (by rw [Environment.value_setValue_of_ne _ _ hne, hx])
  | call f args ih =>
    intro env v hx
    rw [replace, replaceAll_eq_map, hasValue_call, hasValue_call]
    refine exists_congr fun values => and_congr_left fun _ => ?_
    exact haveValues_map_congr fun t ht y => ih t ht hx

/-- The body of a loop at one index: where it reads the variable, the index is written instead. -/
def bodyAt (a : Address) (body : Term) (i : Int64) : Term :=
  replace a (const (ofPosition i)) body

theorem hasValue_loop_bodyAt {env : Environment} {kind : Fold} {lower upper body : Term}
    (hin : a.index.toNat < env.capacity) {v : Float} :
    (loop kind a lower upper body).HasValue frame env v ↔
      ∃ lo, lower.HasValue frame env lo ∧ ∃ hi, upper.HasValue frame env hi ∧
        match LoopRange.ofBounds? lo hi with
        | none => v = nan
        | some range => Joins kind
            (fun i y => (bodyAt a body i).HasValue frame (env.setValue a (ofPosition i)) y)
            range.toList kind.identity v := by
  rw [hasValue_loop]
  refine exists_congr fun lo => and_congr_right fun _ => ?_
  refine exists_congr fun hi => and_congr_right fun _ => ?_
  cases LoopRange.ofBounds? lo hi with
  | none => rfl
  | some range =>
    exact Joins.congr fun i _ y =>
      (hasValue_replace body (Environment.value_setValue_self env a _ hin)).symm

end

end Term

/-! Texts -/

structure BindsIndex (scope : Scope) (env : Environment) (v : String) (body : Phrase) (kind : Fold)
    (a : Address) (l u b : Term) : Prop where
  address : env.lookup? v = some a
  /-- Where the body has the name, it reads the address, unless it is the name of something else. -/
  occurrence : ∀ inner, body.at? inner = some (.name v) →
    ∃ s, b.at? inner = some s ∧ scope.Names env v s ∧ (s = .ref a ↔ scope.IsVariable v)
  /-- As long as the name has the address, the body is evaluated with the index in its place. -/
  value : ∀ frame later x, later.lookup? v = some a →
    ((Term.loop kind a l u b).HasValue frame later x ↔
      ∃ lo, l.HasValue frame later lo ∧ ∃ hi, u.HasValue frame later hi ∧
        match LoopRange.ofBounds? lo hi with
        | none => x = nan
        | some range => Joins kind
            (fun i y => (Term.bodyAt a b i).HasValue frame (later.setValue a (ofPosition i)) y)
            range.toList kind.identity x)

def BindsLoops (scope : Scope) (env : Environment) (p : Phrase) (t : Term) : Prop :=
  ∀ path f kind v lower upper body, Phrase.foldNamed? f = some kind →
    p.at? path = some (.call f [.name v, lower, upper, body]) →
    ∃ a l u b, t.at? path = some (.loop kind a l u b) ∧ BindsIndex scope env v body kind a l u b

theorem Phrase.Means.bindsLoops {scope : Scope} {env : Environment} {p : Phrase} {t : Term}
    (h : Means scope env p t) : BindsLoops scope env p t := by
  intro path f kind v lower upper body hf hloop
  obtain ⟨s, hs, hmeans⟩ := h.at? hloop
  obtain ⟨a, l, u, b, rfl, ha, hb⟩ := hmeans.of_loop hf
  refine ⟨a, l, u, b, hs, ha, fun inner hinner => ?_, fun frame later x hlater => ?_⟩
  · obtain ⟨s, hs, hname⟩ := hb.at? hinner
    cases hname with
    | name hname => exact ⟨s, hs, hname, hname.eq_ref_iff ha⟩
  · exact Term.hasValue_loop_bodyAt (Environment.index_lt_capacity hlater)

/-- **Loops bind their variables.** In every text that is accepted, as an expression or as the
definition of a function, each loop stands in the term as a loop over the address of its variable, and
its body has the index for the name, unless that is the name of a constant or of a parameter. -/
theorem loops_bind_their_variables (env : Environment) (text : String) :
    (∀ e after, env.parse text = (.ok e, after) →
      ∃ p t, (tokensOf text >>= phraseOf) = .ok p ∧ e = t.encode ∧
        BindsLoops ⟨[], false⟩ after p t) ∧
    ∀ id after, env.defineText text = (.ok id, after) →
      ∃ h body t, definitionOf text = .ok (h, body) ∧
        env.Rebinds after ⟨h.name, UInt32.ofNat h.params.length, t.encode⟩ id ∧
        BindsLoops ⟨h.params, true⟩ after body t := by
  constructor
  · intro e after hafter
    have hcases := env.parse_cases text
    rw [hafter] at hcases
    cases hcases with
    | @accepted p phrase faultless =>
      obtain ⟨t, ht, he⟩ := (Phrase.yields_meaning (complete_of_text phrase) _).term faultless
      exact ⟨p, t, phrase, he, ht.bindsLoops⟩
  · intro id after hafter
    obtain ⟨h, body, t, definition, -, ht, -, rebinds, -⟩ :=
      Environment.exists_of_defineText_ok hafter
    exact ⟨h, body, t, definition, rebinds, ht.bindsLoops⟩

end

def nestedText : String := "sum(i, 1, 3, i * prod(j, 1, i, j))"

theorem phrase_nestedText : (tokensOf nestedText >>= phraseOf) = .ok (.call "sum" [.name "i",
    .number 1.0, .number 3.0, .binary .mul (.name "i")
      (.call "prod" [.name "j", .number 1.0, .name "i", .name "j"])]) := by
  have htokens : tokensOf nestedText = .ok [.name "sum", .lparen, .name "i", .comma, .number 1.0,
      .comma, .number 3.0, .comma, .name "i", .sign .mul, .name "prod", .lparen, .name "j", .comma,
      .number 1.0, .comma, .name "i", .comma, .name "j", .rparen, .rparen] := by decide +kernel
  rw [htokens]
  rfl

open Series

def nestedLoops : Term :=
  .loop .sum ⟨0⟩ (.const 1.0) (.const 3.0) (.binary .mul (.ref ⟨0⟩)
    (.loop .product ⟨1⟩ (.const 1.0) (.ref ⟨0⟩) (.ref ⟨1⟩)))

def indexStore : Environment where
  slots := #[⟨some "i", nan⟩, ⟨some "j", nan⟩]
  entries := #[]

/-- The text is read as the nested loops, and the body of the inner one reads the address of `j`. -/
theorem loops_bind_nestedText :
    Environment.empty.parse nestedText = (.ok nestedLoops.encode, indexStore) ∧
      ∃ t, nestedLoops.encode = Term.encode t ∧
        ∃ a l u b, t.at? [2, 1] = some (.loop .product a l u b) ∧
          indexStore.lookup? "j" = some a ∧ b = .ref a := by
  have hparse : Environment.empty.parse nestedText = (.ok nestedLoops.encode, indexStore) := by
    decide +kernel
  obtain ⟨p, t, phrase, he, hbinds⟩ :=
    (loops_bind_their_variables Environment.empty nestedText).1 _ _ hparse
  cases phrase.symm.trans phrase_nestedText
  obtain ⟨a, l, u, b, hloop, binds⟩ :=
    hbinds [2, 1] "prod" .product "j" (.number 1.0) (.name "i") (.name "j") rfl rfl
  obtain ⟨s, hs, -, hread⟩ := binds.occurrence [] rfl
  cases hs
  have free : Scope.IsVariable ⟨[], false⟩ "j" := ⟨List.not_mem_nil, rfl, rfl⟩
  exact ⟨hparse, t, he, a, l, u, b, hloop, binds.address, hread.2 free⟩

def constantSum : Term := .loop .sum ⟨0⟩ (.const 1.0) (.const 3.0) (.const euler)

def constantStore : Environment where
  slots := #[⟨some "e", nan⟩]
  entries := #[]

/-- A loop over the name of a constant has the address of the name in its slot and the constant in its
body, so that its value is not 6, the sum of the indices. -/
theorem sum_over_constant :
    (tokensOf "sum(e, 1, 3, e)" >>= phraseOf)
      = .ok (.call "sum" [.name "e", .number 1.0, .number 3.0, .name "e"]) ∧
    Environment.empty.parse "sum(e, 1, 3, e)" = (.ok constantSum.encode, constantStore) ∧
    constantStore.lookup? "e" = some ⟨0⟩ ∧ constantSum.at? [2] ≠ some (.ref ⟨0⟩) ∧
    constantSum.value 0 [] constantStore ≠ some 6.0 ∧
    (Term.loop .sum ⟨0⟩ (.const 1.0) (.const 3.0) (.ref ⟨0⟩)).value 0 [] constantStore
      = some 6.0 := by
  have htokens : tokensOf "sum(e, 1, 3, e)" = .ok [.name "sum", .lparen, .name "e", .comma,
      .number 1.0, .comma, .number 3.0, .comma, .name "e", .rparen] := by decide +kernel
  refine ⟨?_, by decide +kernel, by decide +kernel, ?_, by decide +kernel, by decide +kernel⟩
  · rw [htokens]
    rfl
  · exact fun h => Term.noConfusion (Option.some.inj h)

end PrefixCalculus
