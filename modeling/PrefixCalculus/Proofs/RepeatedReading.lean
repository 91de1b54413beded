import PrefixCalculus.Proofs.KnownNames
set_option autoImplicit false

/-!
A text that is read again. Main statement: reading a text adds names at most, a text that is no phrase
adds none, and a text that was accepted is accepted again with the same expression, in an environment
that stays as it is.
-/

namespace PrefixCalculus

namespace Environment

/-- Reading a text gives new names places and does nothing else, also when the text is refused. -/
theorem adds_parse (env : Environment) (text : String) :
    env.Adds (env.parse text).2 ∧ (env.parse text).2.entries = env.entries := by
  have grown {p : Phrase} (phrase : (tokensOf text >>= phraseOf) = .ok p) :
      Reading.Grows (.start env) (p.meaning ⟨[], false⟩ (.start env)).2 :=
    (Phrase.yields_meaning (complete_of_text phrase) _).grows
  have hcases := env.parse_cases text
  generalize env.parse text = result at hcases ⊢
  cases hcases with
  | refused => exact ⟨.refl env, rfl⟩
  | failed phrase => exact ⟨(grown phrase).names, (grown phrase).functions⟩
  | accepted phrase => exact ⟨(grown phrase).names, (grown phrase).functions⟩

theorem parse_of_parse_ok {env after : Environment} {text : String} {e : Expression}
    (h : env.parse text = (.ok e, after)) : after.parse text = (.ok e, after) := by
  obtain ⟨p, t, phrase, ht, rfl⟩ := exists_of_parse_ok h
  have hagain : p.meaning ⟨[], false⟩ (.start after) = (t.encode, .start after) := ht.meaning
  simp only [parse_eq, phrase, hagain]
  rfl

/-- **Reading only adds names, and is stable.** Whether a text is accepted or refused, every variable
keeps its address and its value, a new one reads NaN, and no function is touched; a text that is no
phrase leaves the environment as it is; and an accepted text read again gives the same expression and
leaves the environment that the first reading left. -/
theorem parse_stable (env : Environment) (text : String) :
    (env.KeepsVariables (env.parse text).2 ∧ (env.parse text).2.entries = env.entries) ∧
    (∀ error, (tokensOf text >>= phraseOf) = .error error →
      env.parse text = (.error error, env)) ∧
    ∀ e after, env.parse text = (.ok e, after) → after.parse text = (.ok e, after) := by
  obtain ⟨names, functions⟩ := env.adds_parse text
  refine ⟨⟨names.keepsVariables, functions⟩, fun error herror => ?_, fun _ _ => parse_of_parse_ok⟩
  simp only [parse_eq, herror]

/-- The variables `n` and `x` with a free slot between them, and the function `f(x) = x`. -/
def sparseStore : Environment where
  slots := #[⟨some "n", 3.0⟩, ⟨none, nan⟩, ⟨some "x", 2.0⟩]
  entries := #[⟨⟨"f", 1, Expression.arg 0⟩, true⟩]

/-- The first new name takes the free slot and the next one a slot of its own, and read again the text
finds both; a call of what is not there leaves the name before it behind, a missing operand nothing. -/
theorem parse_stable_sparseStore :
    (∃ e after, sparseStore.parse "sum(i, 1, n, f(i) * j)" = (.ok e, after) ∧
      after.lookup? "i" = some ⟨1⟩ ∧ after.lookup? "j" = some ⟨3⟩ ∧
      after.parse "sum(i, 1, n, f(i) * j)" = (.ok e, after)) ∧
    (sparseStore.KeepsVariables (sparseStore.parse "j + g(x)").2 ∧
      (sparseStore.parse "j + g(x)").2.lookup? "j" = some ⟨1⟩) ∧
    (sparseStore.parse "j + * x").2 = sparseStore := by
  refine ⟨?_, ⟨(parse_stable sparseStore "j + g(x)").1.1, by decide +kernel⟩, ?_⟩
  · have hok : (sparseStore.parse "sum(i, 1, n, f(i) * j)").1.toBool = true := by decide +kernel
    have hi : (sparseStore.parse "sum(i, 1, n, f(i) * j)").2.lookup? "i" = some ⟨1⟩ := by
      decide +kernel
    have hj : (sparseStore.parse "sum(i, 1, n, f(i) * j)").2.lookup? "j" = some ⟨3⟩ := by
      decide +kernel
    have again := (parse_stable sparseStore "sum(i, 1, n, f(i) * j)").2.2
    generalize sparseStore.parse "sum(i, 1, n, f(i) * j)" = result at *
    obtain ⟨error | e, after⟩ := result
    · cases hok
    · exact ⟨e, after, rfl, hi, hj, again e after rfl⟩
  · have herror : (tokensOf "j + * x" >>= phraseOf).toBool = false := by decide +kernel
    have unchanged := (parse_stable sparseStore "j + * x").2.1
    generalize (tokensOf "j + * x" >>= phraseOf) = result at *
    obtain error | p := result
    · rw [unchanged error rfl]
    · cases herror

end Environment

end PrefixCalculus
