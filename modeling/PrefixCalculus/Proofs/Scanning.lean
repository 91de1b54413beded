import Mathlib.Data.List.TakeDrop
import Mathlib.Data.List.TakeWhile
import PrefixCalculus.Phrase.Token
set_option autoImplicit false

/-!
Texts that fall into tokens. A text goes on with another one that begins with a separator without any
token growing, so texts that fall into tokens can be put together. Main statement: a text that falls
into tokens is scanned as these tokens, and the other way round.
-/

namespace PrefixCalculus

namespace Token

/-! Characters that no token goes on with -/

def separates (c : Char) : Bool :=
  Text.isBlank c || c == '(' || c == ')' || c == ','

def Separated (cs : List Char) : Prop :=
  ∀ c, cs.head? = some c → separates c = true

theorem char_le_iff {c d : Char} : c ≤ d ↔ c.toNat ≤ d.toNat :=
  UInt32.le_iff_toNat_le

theorem isDigit_iff {c : Char} : Decimal.isDigit c = true ↔ 48 ≤ c.toNat ∧ c.toNat ≤ 57 := by
  simp [Decimal.isDigit, char_le_iff]

theorem isNameStart_iff {c : Char} : isNameStart c = true ↔
    (97 ≤ c.toNat ∧ c.toNat ≤ 122) ∨ (65 ≤ c.toNat ∧ c.toNat ≤ 90) ∨ c.toNat = 95 := by
  have h : c = '_' ↔ c.toNat = 95 := by
    constructor
    · rintro rfl
      rfl
    · intro h
      exact Char.toNat_inj.1 h
  simp [isNameStart, char_le_iff, h, or_assoc]

theorem separates_iff {c : Char} : separates c = true ↔
    c.toNat ∈ Text.blanks ∨ c.toNat = 40 ∨ c.toNat = 41 ∨ c.toNat = 44 := by
  have h : ∀ d : Char, c = d ↔ c.toNat = d.toNat := fun d => Char.toNat_inj.symm
  simp [separates, Text.isBlank, h, or_assoc]

theorem not_isDigit_of_separates {c : Char} (h : separates c = true) : Decimal.isDigit c = false := by
  rw [separates_iff] at h
  rw [Bool.eq_false_iff, ne_eq, isDigit_iff]
  simp only [Text.blanks, List.mem_cons, List.not_mem_nil, or_false] at h
  omega

theorem not_isNamePart_of_separates {c : Char} (h : separates c = true) : isNamePart c = false := by
  rw [isNamePart, not_isDigit_of_separates h, Bool.or_false, Bool.eq_false_iff, ne_eq, isNameStart_iff]
  rw [separates_iff] at h
  simp only [Text.blanks, List.mem_cons, List.not_mem_nil, or_false] at h
  omega

theorem ne_of_separates {c d : Char} (h : separates c = true) (hd : separates d = false) : c ≠ d := by
  rintro rfl
  rw [h] at hd
  cases hd

/-! What stands before a separator is taken as it is at the end of a text -/

section

variable {tail : List Char} (h : Separated tail)
include h

theorem span_append {p : Char → Bool} (hp : ∀ c, separates c = true → p c = false) (cs : List Char) :
    (cs ++ tail).span p = ((cs.span p).1, (cs.span p).2 ++ tail) := by
  simp only [List.span_eq_takeWhile_dropWhile]
  induction cs with
  | nil =>
    cases tail with
    | nil => rfl
    | cons c tail =>
      have hc := hp c (h c rfl)
      simp [hc]
  | cons c cs ih =>
    by_cases hc : p c = true
    · simpa [hc] using ih
    · simp [hc]

theorem spanDigits_append (cs : List Char) : Decimal.spanDigits (cs ++ tail)
    = ((Decimal.spanDigits cs).1, (Decimal.spanDigits cs).2 ++ tail) :=
  span_append h (fun _ => not_isDigit_of_separates) cs

theorem takeSign_append (cs : List Char) : Decimal.takeSign (cs ++ tail)
    = ((Decimal.takeSign cs).1, (Decimal.takeSign cs).2 ++ tail) := by
  cases cs with
  | nil =>
    cases tail with
    | nil => rfl
    | cons c tail =>
      have hm := ne_of_separates (h c rfl) (d := '-') (by decide)
      have hp := ne_of_separates (h c rfl) (d := '+') (by decide)
      simp [Decimal.takeSign, hm, hp]
  | cons c cs =>
    by_cases hm : c = '-'
    · subst hm
      rfl
    · by_cases hp : c = '+'
      · subst hp
        rfl
      · simp [Decimal.takeSign, hm, hp]

theorem scanFraction_append (cs : List Char) :
    (scanFraction (cs ++ tail)).1 = (scanFraction cs).1 ∧
      (scanFraction (cs ++ tail)).2.1 = (scanFraction cs).2.1 ++ tail := by
  cases cs with
  | nil =>
    cases tail with
    | nil => exact ⟨rfl, rfl⟩
    | cons c tail =>
      have hc := ne_of_separates (h c rfl) (d := '.') (by decide)
      simp [scanFraction, Decimal.takeFraction?, hc]
  | cons c cs =>
    by_cases hc : c = '.'
    · subst hc
      have hspan := spanDigits_append h cs
      simp only [scanFraction, Decimal.takeFraction?, List.cons_append, hspan]
      by_cases hd : (Decimal.spanDigits cs).1.isEmpty
      · simp [hd]
      · simp [hd]
    · simp [scanFraction, Decimal.takeFraction?, hc]

theorem scanExponent_append (cs : List Char) :
    (scanExponent (cs ++ tail)).1 = (scanExponent cs).1 ∧
      (scanExponent (cs ++ tail)).2.1 = (scanExponent cs).2.1 ++ tail := by
  cases cs with
  | nil =>
    cases tail with
    | nil => exact ⟨rfl, rfl⟩
    | cons c tail =>
      have hl := ne_of_separates (h c rfl) (d := 'e') (by decide)
      have hu := ne_of_separates (h c rfl) (d := 'E') (by decide)
      simp [scanExponent, Decimal.takeExponent?, hl, hu]
  | cons c cs =>
    by_cases hc : c = 'e' ∨ c = 'E'
    · have hsign := takeSign_append h cs
      have hspan := spanDigits_append h (Decimal.takeSign cs).2
      simp only [scanExponent, Decimal.takeExponent?, List.cons_append, hsign, hspan]
      by_cases hd : (Decimal.spanDigits (Decimal.takeSign cs).2).1.isEmpty
      · rcases hc with rfl | rfl <;> simp [hd]
      · simp [hc, hd]
    · simp only [not_or] at hc
      simp [scanExponent, Decimal.takeExponent?, hc.1, hc.2]

theorem scanNumber_append (cs : List Char) :
    (scanNumber (cs ++ tail)).token = (scanNumber cs).token ∧
      (scanNumber (cs ++ tail)).rest = (scanNumber cs).rest ++ tail := by
  have hwhole := spanDigits_append h cs
  have hfraction := scanFraction_append h (Decimal.spanDigits cs).2
  have hexponent := scanExponent_append h (scanFraction (Decimal.spanDigits cs).2).2.1
  simp only [scanNumber, hwhole, hfraction, hexponent, and_self]

end

theorem scanSign?_short {c : Char} {t : Token} {cs : List Char}
    (hc : (c, t) ∈ [('<', sign .lt), ('>', sign .gt), ('!', bang), ('=', assign)])
    (h : ∀ ds, cs ≠ '=' :: ds) : scanSign? (c :: cs) = some (t, cs) := by
  simp only [List.mem_cons, List.not_mem_nil, or_false, Prod.mk.injEq] at hc
  cases cs with
  | nil => rcases hc with ⟨rfl, rfl⟩ | ⟨rfl, rfl⟩ | ⟨rfl, rfl⟩ | ⟨rfl, rfl⟩ <;> rfl
  | cons d cs =>
    have hd : d ≠ '=' := fun e => h cs (by rw [e])
    rcases hc with ⟨rfl, rfl⟩ | ⟨rfl, rfl⟩ | ⟨rfl, rfl⟩ | ⟨rfl, rfl⟩ <;> simp [scanSign?]

theorem scanSign?_append {tail : List Char} (h : ∀ ds, tail ≠ '=' :: ds) {cs rest : List Char}
    {t : Token} (hs : scanSign? cs = some (t, rest)) :
    scanSign? (cs ++ tail) = some (t, rest ++ tail) := by
  have hnext : ∀ l : List Char, (∀ ds, l ≠ '=' :: ds) → ∀ ds, l ++ tail ≠ '=' :: ds := by
    intro l hl ds
    cases l with
    | nil => exact h ds
    | cons d l =>
      intro e
      injection e with hd
      exact hl l (by rw [hd])
  unfold scanSign? at hs
  split at hs
  case h_7 hn => cases hs; exact scanSign?_short (by simp) (hnext _ hn)
  case h_8 hn => cases hs; exact scanSign?_short (by simp) (hnext _ hn)
  case h_15 hn => cases hs; exact scanSign?_short (by simp) (hnext _ hn)
  case h_16 hn => cases hs; exact scanSign?_short (by simp) (hnext _ hn)
  case h_20 => cases hs
  all_goals cases hs; rfl

theorem scanSign?_eq_some {cs rest : List Char} {t : Token} (h : scanSign? cs = some (t, rest)) :
    rest.length < cs.length ∧ ∀ c, cs.head? = some c → Text.isBlank c = false := by
  unfold scanSign? at h
  split at h
  case h_20 => cases h
  all_goals
    cases h
    refine ⟨by simp only [List.length_cons]; omega, ?_⟩
    rintro c ⟨⟩
    decide

theorem length_span_le {p : Char → Bool} (cs : List Char) : (cs.span p).2.length ≤ cs.length := by
  rw [List.span_eq_takeWhile_dropWhile]
  exact (List.dropWhile_suffix p).length_le

theorem length_scanFraction_le (cs : List Char) : (scanFraction cs).2.1.length ≤ cs.length := by
  cases cs with
  | nil => simp [scanFraction, Decimal.takeFraction?]
  | cons c cs =>
    by_cases hc : c = '.'
    · subst hc
      simp only [scanFraction, Decimal.takeFraction?]
      by_cases hd : (Decimal.spanDigits cs).1.isEmpty
      · simp [hd]
      · simp only [hd, if_false, Bool.false_eq_true]
        have := length_span_le (p := Decimal.isDigit) cs
        exact Nat.le_succ_of_le this
    · simp [scanFraction, Decimal.takeFraction?, hc]

theorem length_takeSign_le (cs : List Char) : (Decimal.takeSign cs).2.length ≤ cs.length := by
  unfold Decimal.takeSign
  split <;> simp

theorem length_scanExponent_le (cs : List Char) : (scanExponent cs).2.1.length ≤ cs.length := by
  cases cs with
  | nil => simp [scanExponent, Decimal.takeExponent?]
  | cons c cs =>
    by_cases hc : c = 'e' ∨ c = 'E'
    · simp only [scanExponent, Decimal.takeExponent?]
      by_cases hd : (Decimal.spanDigits (Decimal.takeSign cs).2).1.isEmpty
      · rcases hc with rfl | rfl <;> simp [hd]
      · have hsign := length_takeSign_le cs
        have hspan := length_span_le (p := Decimal.isDigit) (Decimal.takeSign cs).2
        simp only [hc, hd, Bool.or_eq_true, decide_eq_true_eq, if_true, Bool.false_eq_true, if_false]
        exact Nat.le_succ_of_le (Nat.le_trans hspan hsign)
    · simp only [not_or] at hc
      simp [scanExponent, Decimal.takeExponent?, hc.1, hc.2]

theorem length_rest_lt {cs : List Char} {s : Scanned} (h : scan? cs = some s) :
    s.rest.length < cs.length := by
  cases cs with
  | nil => cases h
  | cons c cs =>
    simp only [scan?] at h
    split at h
    · rename_i hc
      cases h
      have hwhole : (Decimal.spanDigits (c :: cs)).2.length ≤ cs.length := by
        simp only [Decimal.spanDigits, List.span_eq_takeWhile_dropWhile, List.dropWhile_cons, hc, if_true]
        exact (List.dropWhile_suffix _).length_le
      have hfraction := length_scanFraction_le (Decimal.spanDigits (c :: cs)).2
      have hexponent := length_scanExponent_le (scanFraction (Decimal.spanDigits (c :: cs)).2).2.1
      exact Nat.lt_succ_of_le (Nat.le_trans hexponent (Nat.le_trans hfraction hwhole))
    · split at h
      · cases h
        have := length_span_le (p := isNamePart) cs
        exact Nat.lt_succ_of_le this
      · obtain ⟨⟨t, rest⟩, hs, rfl⟩ := Option.map_eq_some_iff.1 h
        exact (scanSign?_eq_some hs).1

theorem not_isBlank_of_scan? {c : Char} {cs : List Char} {s : Scanned} (h : scan? (c :: cs) = some s) :
    Text.isBlank c = false := by
  rw [Bool.eq_false_iff]
  intro hblank
  have hsep : separates c = true := by simp [separates, hblank]
  have hpart := not_isNamePart_of_separates hsep
  rw [isNamePart, Bool.or_eq_false_iff] at hpart
  simp only [scan?, not_isDigit_of_separates hsep, hpart.1, Bool.false_eq_true, if_false] at h
  obtain ⟨⟨t, rest⟩, hs, rfl⟩ := Option.map_eq_some_iff.1 h
  rw [(scanSign?_eq_some hs).2 c rfl] at hblank
  cases hblank

/-- What is scanned before a separator is scanned at the end of a text. -/
theorem scan?_append {cs tail : List Char} {s : Scanned} (htail : Separated tail)
    (h : scan? cs = some s) :
    ∃ s', scan? (cs ++ tail) = some s' ∧ s'.token = s.token ∧ s'.rest = s.rest ++ tail := by
  cases cs with
  | nil => cases h
  | cons c cs =>
    simp only [scan?, List.cons_append] at h ⊢
    split at h
    · rename_i hc
      rw [if_pos hc]
      cases h
      exact ⟨_, rfl, scanNumber_append htail (c :: cs)⟩
    · rename_i hc
      rw [if_neg hc]
      split at h
      · rename_i hname
        rw [if_pos hname]
        cases h
        rw [span_append htail (fun _ => not_isNamePart_of_separates) cs]
        exact ⟨_, rfl, rfl, rfl⟩
      · rename_i hname
        rw [if_neg hname]
        obtain ⟨⟨t, rest⟩, hs, rfl⟩ := Option.map_eq_some_iff.1 h
        have heq : ∀ ds, tail ≠ '=' :: ds := by
          rintro ds rfl
          exact absurd (htail '=' rfl) (by decide)
        have hs := scanSign?_append heq hs
        rw [List.cons_append] at hs
        rw [hs]
        exact ⟨_, rfl, rfl, rfl⟩

/-! Texts that fall into tokens -/

inductive Lexes : List Char → List Token → Prop
  | nil : Lexes [] []
  | blank {c : Char} {cs : List Char} {ts : List Token} (hc : Text.isBlank c = true)
      (h : Lexes cs ts) : Lexes (c :: cs) ts
  | token {cs : List Char} {s : Scanned} {ts : List Token} (hs : scan? cs = some s)
      (h : Lexes s.rest ts) : Lexes cs (s.token :: ts)

namespace Lexes

theorem append {cs tail : List Char} {ts us : List Token} (h : Lexes cs ts) (htail : Separated tail)
    (hus : Lexes tail us) : Lexes (cs ++ tail) (ts ++ us) := by
  induction h with
  | nil => exact hus
  | blank hc _ ih => exact .blank hc ih
  | token hs _ ih =>
    obtain ⟨s', hs', htoken, hrest⟩ := scan?_append htail hs
    rw [List.cons_append, ← htoken]
    exact .token hs' (by rw [hrest]; exact ih)

theorem blanks {bs cs : List Char} {ts : List Token} (hb : ∀ c ∈ bs, Text.isBlank c = true)
    (h : Lexes cs ts) : Lexes (bs ++ cs) ts := by
  induction bs with
  | nil => exact h
  | cons c bs ih => exact .blank (hb c (by simp)) (ih fun c hc => hb c (by simp [hc]))

theorem skipBlanks {cs : List Char} {ts : List Token} (h : Lexes cs ts) :
    Lexes (Text.skipBlanks cs) ts := by
  induction h with
  | nil => exact .nil
  | blank hc _ ih =>
    rw [Text.skipBlanks, List.dropWhile_cons, if_pos hc]
    exact ih
  | @token cs s ts hs h _ =>
    cases cs with
    | nil => cases hs
    | cons c cs =>
      rw [Text.skipBlanks, List.dropWhile_cons, if_neg (by rw [not_isBlank_of_scan? hs]; simp)]
      exact .token hs h

theorem scanFrom_eq {left : Nat} : ∀ {cs : List Char} {ts : List Token}, Lexes cs ts →
    cs.length < left → ∀ reach found, scanFrom left cs reach found = .ok (found.reverse ++ ts) := by
  induction left with
  | zero => intro cs ts _ hl; omega
  | succ left ih =>
    intro cs ts h hl reach found
    have hskip : (Text.skipBlanks cs).length ≤ cs.length :=
      (List.dropWhile_suffix _).length_le
    replace h := h.skipBlanks
    generalize hds : Text.skipBlanks cs = ds at h hskip
    rw [scanFrom, hds]
    cases h with
    | nil => simp
    | blank hc h =>
      rename_i c cs'
      have : (c :: cs').head? = some c := rfl
      rw [← hds, Text.skipBlanks] at this
      have hnot := List.head?_dropWhile_not Text.isBlank cs
      rw [this] at hnot
      simp [hc] at hnot
    | token hs h =>
      cases ds with
      | nil => cases hs
      | cons c ds =>
        have hlt := length_rest_lt hs
        simp only [hs]
        rw [ih h (by omega)]
        simp

theorem exists_of_scanFrom {left : Nat} : ∀ {cs reach : List Char} {found ts : List Token},
    cs.length < left → scanFrom left cs reach found = .ok ts →
      ∃ us, ts = found.reverse ++ us ∧ Lexes cs us := by
  induction left with
  | zero => intro cs _ _ _ hl _; omega
  | succ left ih =>
    intro cs reach found ts hl h
    rw [scanFrom] at h
    have hskip : (Text.skipBlanks cs).length ≤ cs.length := (List.dropWhile_suffix _).length_le
    have hsplit := List.takeWhile_append_dropWhile (p := Text.isBlank) (l := cs)
    have hblanks : ∀ c ∈ cs.takeWhile Text.isBlank, Text.isBlank c = true :=
      fun c hc => List.mem_takeWhile_imp hc
    change cs.takeWhile Text.isBlank ++ Text.skipBlanks cs = cs at hsplit
    split at h
    · rename_i hnil
      cases h
      refine ⟨[], by simp, ?_⟩
      rw [← hsplit, hnil]
      exact blanks hblanks .nil
    · rename_i c ds hcons
      split at h
      · rename_i s hs
        have hlt := length_rest_lt hs
        rw [hcons] at hskip
        obtain ⟨us, rfl, hus⟩ := ih (by omega) h
        refine ⟨s.token :: us, by simp, ?_⟩
        rw [← hsplit, hcons]
        exact blanks hblanks (.token hs hus)
      · cases h

theorem all_isBlank {cs : List Char} {ts : List Token} (h : Lexes cs ts)
    (hb : ∀ c ∈ cs, Text.isBlank c = true) : ts = [] := by
  induction h with
  | nil => rfl
  | blank _ _ ih => exact ih fun c hc => hb c (by simp [hc])
  | @token cs s ts hs _ _ =>
    cases cs with
    | nil => cases hs
    | cons c cs =>
      have hc := not_isBlank_of_scan? hs
      rw [hb c (by simp)] at hc
      cases hc

/-- The scanner is exact: a text that is not only blanks has the tokens that it lexes to. -/
theorem ofText_eq_ok_iff {text : String} {ts : List Token} (hne : ts ≠ []) :
    ofText text = .ok ts ↔ Lexes text.toList ts := by
  constructor
  · intro h
    simp only [ofText] at h
    split at h
    · cases h
    · obtain ⟨us, rfl, hus⟩ := exists_of_scanFrom (Nat.lt_succ_self _) h
      exact hus
  · intro h
    have hnot : ¬ (!text.toList.isEmpty && text.toList.all Text.isBlank) = true := by
      intro hall
      rw [Bool.and_eq_true, List.all_eq_true] at hall
      exact hne (h.all_isBlank hall.2)
    simp only [ofText, if_neg hnot]
    rw [h.scanFrom_eq (Nat.lt_succ_self _)]
    rfl

end Lexes

def isIdentifier (name : String) : Bool :=
  match name.toList with
  | [] => false
  | c :: cs => isNameStart c && cs.all isNamePart

theorem lexes_name {name : String} (h : isIdentifier name = true) :
    Lexes name.toList [.name name] := by
  unfold isIdentifier at h
  split at h
  · cases h
  · rename_i c cs hcs
    rw [Bool.and_eq_true, List.all_eq_true] at h
    obtain ⟨hstart, hparts⟩ := h
    have hdigit : Decimal.isDigit c = false := by
      rw [isNameStart_iff] at hstart
      rw [Bool.eq_false_iff, ne_eq, isDigit_iff]
      omega
    have htake : cs.takeWhile isNamePart = cs := List.takeWhile_eq_self_iff.2 hparts
    have hdrop : cs.dropWhile isNamePart = [] := List.dropWhile_eq_nil_iff.2 hparts
    have hname : String.ofList (c :: cs) = name := by rw [← hcs, String.ofList_toList]
    rw [hcs]
    have hs : scan? (c :: cs) = some ⟨.name name, [], []⟩ := by
      simp [scan?, hdigit, hstart, List.span_eq_takeWhile_dropWhile, htake, hdrop, hname]
    exact .token hs .nil

theorem Lexes.head_of_equals {cs : List Char} {ts : List Token} (h : Lexes ('=' :: cs) ts) :
    ts.head? = some .assign ∨ ts.head? = some (.sign .eq) := by
  cases h with
  | blank hc _ => exact absurd hc (by decide)
  | token hs _ =>
    have hs : (scanSign? ('=' :: cs)).map (fun r => (⟨r.1, r.2, r.2⟩ : Scanned)) = _ := hs
    obtain ⟨⟨t, rest⟩, ht, rfl⟩ := Option.map_eq_some_iff.1 hs
    cases cs with
    | nil => cases ht; exact .inl rfl
    | cons d cs =>
      by_cases hd : d = '='
      · subst hd
        cases ht
        exact .inr rfl
      · rw [scanSign?_short (t := .assign) (by simp) (fun ds e => hd (by injection e))] at ht
        cases ht
        exact .inl rfl

end Token

end PrefixCalculus
