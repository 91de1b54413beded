import PrefixCalculus.Proofs.DocumentWords
import PrefixCalculus.Proofs.WrittenLines
set_option autoImplicit false

/-!
TOML documents of plain lines: blank lines, headers with a bare name, and bare keys with a word for
their value. Main statement: a text of such lines is read as the statements of its items.
-/

namespace PrefixCalculus

namespace Toml

/-! The front of a line -/

theorem ne_of_isWordChar {c d : Char} (hc : isWordChar c = true) (hd : isWordChar d = false) :
    c ≠ d := by
  rintro rfl
  exact absurd hc (by simp [hd])

theorem skipSpaces_cons {c : Char} (h : isSpace c = false) (cs : List Char) :
    skipSpaces (c :: cs) = c :: cs := by
  simp [skipSpaces, h]

theorem isSpace_of_isWordChar {c : Char} (h : isWordChar c = true) : isSpace c = false := by
  have hblank := ne_of_isWordChar h (d := ' ') (by decide)
  have htab := ne_of_isWordChar h (d := '\t') (by decide)
  simp [isSpace, hblank, htab]

theorem skipSpaces_append {front : List Char} (h : ∃ c cs, front = c :: cs ∧ isWordChar c = true)
    (rest : List Char) : skipSpaces (front ++ rest) = front ++ rest := by
  obtain ⟨c, cs, rfl, hc⟩ := h
  exact skipSpaces_cons (isSpace_of_isWordChar hc) (cs ++ rest)

theorem isStop_of_isWordChar {c : Char} (h : isWordChar c = true) : isStop c = false := by
  have hnewline := ne_of_isWordChar h (d := '\n') (by decide)
  have hreturn := ne_of_isWordChar h (d := '\r') (by decide)
  have hmark := ne_of_isWordChar h (d := '#') (by decide)
  have hcomma := ne_of_isWordChar h (d := ',') (by decide)
  have hbracket := ne_of_isWordChar h (d := ']') (by decide)
  have hbrace := ne_of_isWordChar h (d := '\x7d') (by decide)
  simp [isStop, isSpace_of_isWordChar h, hnewline, hreturn, hmark, hcomma, hbracket, hbrace]

section

variable {word : List Char} {v : Value} (h : IsWord word v) (rest : List Char)
include h

theorem IsWord.exists_cons : ∃ c cs, word = c :: cs ∧ Toml.isWordChar c = true := by
  obtain ⟨c, cs, rfl⟩ := List.exists_cons_of_ne_nil h.ne_nil
  exact ⟨c, cs, rfl, h.isWordChar c (List.mem_cons_self ..)⟩

theorem takeWord_append : takeWord (word ++ '\n' :: rest) = (word, '\n' :: rest) := by
  have hspan : (word ++ '\n' :: rest).span (fun c => !isStop c) = (word, '\n' :: rest) :=
    span_of_all (fun c hc => by rw [isStop_of_isWordChar (h.isWordChar c hc), Bool.not_false])
      (by rintro c ⟨⟩; decide)
  simp only [takeWord, hspan]
  rfl

theorem scalar?_word : scalar? (word ++ '\n' :: rest) = some (v, '\n' :: rest) := by
  have htake := takeWord_append h rest
  have hreads := h.reads
  obtain ⟨c, cs, rfl, hc⟩ := h.exists_cons
  have hdouble := ne_of_isWordChar hc (d := '"') (by decide)
  have hsingle := ne_of_isWordChar hc (d := '\'') (by decide)
  unfold scalar?
  split
  · rename_i heq
    exact absurd (List.cons.inj heq).1 hdouble
  · rename_i heq
    exact absurd (List.cons.inj heq).1 hsingle
  · simp only [htake, hreads, Option.map_some]

theorem takeValue?_word (depth : ℕ) :
    takeValue? depth (word ++ '\n' :: rest) = some (v, '\n' :: rest) := by
  have hscalar := scalar?_word h rest
  obtain ⟨c, cs, rfl, hc⟩ := h.exists_cons
  have hbracket := ne_of_isWordChar hc (d := '[') (by decide)
  have hbrace := ne_of_isWordChar hc (d := '\x7b') (by decide)
  cases depth with
  | zero => exact hscalar
  | succ depth =>
    rw [List.cons_append] at hscalar ⊢
    simp [takeValue?, hbracket, hbrace, hscalar]

end

section

variable {name : String} (h : IsName name) {rest : List Char}
include h

theorem IsName.exists_cons : ∃ c cs, name.toList = c :: cs ∧ isWordChar c = true := by
  obtain ⟨c, cs, hcs⟩ := List.exists_cons_of_ne_nil h.ne_nil
  exact ⟨c, cs, hcs, isWordChar_of_isBare (h.isBare c (hcs ▸ List.mem_cons_self ..))⟩

variable (hrest : ∀ c, rest.head? = some c → isBare c = false)
include hrest

theorem takeName?_append : takeName? (name.toList ++ rest) = some (name, rest) := by
  have hspan := span_of_all h.isBare hrest
  obtain ⟨c, cs, hcs, hc⟩ := h.exists_cons
  have hdouble := ne_of_isWordChar hc (d := '"') (by decide)
  have hsingle := ne_of_isWordChar hc (d := '\'') (by decide)
  unfold takeName?
  split
  · rename_i heq
    exact absurd (List.cons.inj (hcs ▸ heq)).1 hdouble
  · rename_i heq
    exact absurd (List.cons.inj (hcs ▸ heq)).1 hsingle
  · simp only [hspan, List.isEmpty_iff, if_neg h.ne_nil, String.ofList_toList]

theorem takeKey?_append (hpoint : (skipSpaces rest).head? ≠ some '.') (left : ℕ) :
    takeKey? (left + 1) (name.toList ++ rest) = some (⟨[], name⟩, skipSpaces rest) := by
  simp only [takeKey?, takeName?_append h hrest, Option.bind_eq_bind, Option.bind_some]
  split
  · rename_i heq
    exact absurd (by rw [heq]; rfl) hpoint
  · rfl

end

/-! One line -/

theorem endLine?_newline (rest : List Char) : endLine? ('\n' :: rest) = some rest := rfl

theorem takeStatement?_header {name : String} (h : IsName name) (rest : List Char) :
    takeStatement? ('[' :: (name.toList ++ ']' :: '\n' :: rest))
      = some (some (.table ⟨[], name⟩), '\n' :: rest) := by
  obtain ⟨c, cs, hcs, hc⟩ := h.exists_cons
  have hbracket := ne_of_isWordChar hc (d := '[') (by decide)
  have hfront : skipSpaces ('[' :: (name.toList ++ ']' :: '\n' :: rest))
      = '[' :: (name.toList ++ ']' :: '\n' :: rest) := rfl
  have hspaces : skipSpaces (name.toList ++ ']' :: '\n' :: rest)
      = name.toList ++ ']' :: '\n' :: rest := skipSpaces_append h.exists_cons _
  have hend : skipSpaces (']' :: '\n' :: rest) = ']' :: '\n' :: rest := rfl
  unfold takeStatement?
  rw [hfront]
  split
  · rename_i heq
    rw [hcs] at heq
    exact absurd (List.cons.inj (List.cons.inj heq).2).1 hbracket
  · rename_i heq
    rw [← (List.cons.inj heq).2, hspaces, takeKey?_append h (by rintro c ⟨⟩; decide) (by simp [hend]),
      hend]
    rfl
  · rename_i hne
    exact absurd rfl (hne _)

theorem endLine?_eq_none {c : Char} (h : isWordChar c = true) (cs : List Char) :
    endLine? (c :: cs) = none := by
  have hmark := ne_of_isWordChar h (d := '#') (by decide)
  have hnewline := ne_of_isWordChar h (d := '\n') (by decide)
  have hreturn := ne_of_isWordChar h (d := '\r') (by decide)
  simp [endLine?, skipSpaces_cons (isSpace_of_isWordChar h), newline?, hmark, hnewline, hreturn]

section

variable {key : String} (isName : IsName key) {word : List Char} {v : Value} (isWord : IsWord word v)
  (rest : List Char)
include isName isWord

theorem takeAssignment?_field :
    takeAssignment? (takeValue? nesting)
        (key.toList ++ ' ' :: '=' :: ' ' :: (word ++ '\n' :: rest))
      = some ((⟨[], key⟩, v), '\n' :: rest) := by
  have hequals : skipSpaces (' ' :: '=' :: ' ' :: (word ++ '\n' :: rest))
      = '=' :: ' ' :: (word ++ '\n' :: rest) := rfl
  have hword : skipSpaces (' ' :: (word ++ '\n' :: rest)) = word ++ '\n' :: rest :=
    skipSpaces_append isWord.exists_cons _
  have hkey := @takeKey?_append _ isName (' ' :: '=' :: ' ' :: (word ++ '\n' :: rest))
    (by rintro c ⟨⟩; decide) (by simp [hequals])
  rw [hequals] at hkey
  simp only [takeAssignment?, hkey, hword, takeValue?_word isWord, Option.bind_eq_bind,
    Option.bind_some]
  rfl

theorem takeStatement?_field :
    takeStatement? (key.toList ++ ' ' :: '=' :: ' ' :: (word ++ '\n' :: rest))
      = some (some (.assign ⟨[], key⟩ v), '\n' :: rest) := by
  have hassign := takeAssignment?_field isName isWord rest
  obtain ⟨c, cs, hcs, hc⟩ := isName.exists_cons
  rw [hcs, List.cons_append] at hassign ⊢
  have hbracket := ne_of_isWordChar hc (d := '[') (by decide)
  unfold takeStatement?
  rw [skipSpaces_cons (isSpace_of_isWordChar hc)]
  split
  · rename_i heq
    exact absurd (List.cons.inj heq).1 hbracket
  · rename_i heq
    exact absurd (List.cons.inj heq).1 hbracket
  · rw [endLine?_eq_none hc, if_neg (by simp), hassign]
    rfl

end

def Item.statement : Item → Statement
  | header name => .table ⟨[], name⟩
  | field key x => .assign ⟨[], key⟩ x.value

theorem takeStatement?_line {line : String} {item : Item} (h : IsLine Says line item)
    (plain : item.IsPlain) (rest : List Char) :
    takeStatement? (line.toList ++ '\n' :: rest) = some (some item.statement, '\n' :: rest) := by
  cases h with
  | header name =>
    have htext : ("[" ++ name ++ "]").toList ++ '\n' :: rest
        = '[' :: (name.toList ++ ']' :: '\n' :: rest) := by simp
    rw [htext]
    exact takeStatement?_header plain rest
  | @field key word x hword =>
    have htext : (key ++ " = " ++ word).toList ++ '\n' :: rest
        = key.toList ++ ' ' :: '=' :: ' ' :: (word.toList ++ '\n' :: rest) := by simp
    rw [htext]
    exact takeStatement?_field plain hword.isWord rest

/-! All lines -/

theorem length_le_linesText (lines : List String) :
    lines.length ≤ (linesText lines).toList.length := by
  induction lines with
  | nil => exact Nat.zero_le _
  | cons line lines ih =>
    rw [toList_linesText_cons, List.length_append, List.length_cons, List.length_cons]
    omega

theorem takeStatements?_cons {line : String} {lines : List String} {statement? : Option Statement}
    (hline : takeStatement? (line.toList ++ '\n' :: (linesText lines).toList)
      = some (statement?, '\n' :: (linesText lines).toList)) (left : ℕ) :
    takeStatements? (left + 1) (linesText (line :: lines)).toList
      = (takeStatements? left (linesText lines).toList).map (statement?.toList ++ ·) := by
  rw [toList_linesText_cons]
  obtain ⟨c, cs, hcs⟩ : ∃ c cs, line.toList ++ '\n' :: (linesText lines).toList = c :: cs :=
    List.exists_cons_of_ne_nil (by simp)
  rw [hcs] at hline ⊢
  simp only [takeStatements?, hline, endLine?_newline, Option.bind_eq_bind, Option.bind_some]
  cases takeStatements? left (linesText lines).toList with
  | none => rfl
  | some statements => rfl

theorem takeStatements?_lines (lines : List String) : ∀ {items : List Item} (left : ℕ),
    List.Forall₂ (IsLine Says) (filled lines) items → (∀ item ∈ items, item.IsPlain) →
    lines.length < left →
    takeStatements? left (linesText lines).toList = some (items.map Item.statement) := by
  induction lines with
  | nil =>
    intro items left h _ hleft
    obtain ⟨left, rfl⟩ := Nat.exists_eq_succ_of_ne_zero (Nat.ne_of_gt hleft)
    cases h
    rfl
  | cons line lines ih =>
    intro items left h plain hleft
    obtain ⟨left, rfl⟩ := Nat.exists_eq_succ_of_ne_zero (Nat.ne_of_gt (Nat.zero_lt_of_lt hleft))
    have hleft' : lines.length < left := Nat.lt_of_succ_lt_succ hleft
    by_cases hempty : line = ""
    · subst hempty
      rw [takeStatements?_cons rfl, ih left h plain hleft']
      rfl
    · have hfilled : filled (line :: lines) = line :: filled lines :=
        List.filter_cons_of_pos (by simpa using hempty)
      rw [hfilled] at h
      cases h with
      | @cons _ item _ items hline hrest =>
        rw [takeStatements?_cons (takeStatement?_line hline (plain item (List.mem_cons_self ..)) _),
          ih left hrest (fun item hmem => plain item (List.mem_cons_of_mem _ hmem)) hleft']
        rfl

section

variable {lines : List String} {items : List Item}
  (h : List.Forall₂ (IsLine Says) (filled lines) items) (plain : ∀ item ∈ items, item.IsPlain)
include h plain

theorem skipMark_linesText : skipMark (linesText lines).toList = (linesText lines).toList := by
  cases lines with
  | nil => rfl
  | cons line lines =>
    rw [toList_linesText_cons]
    by_cases hempty : line = ""
    · rw [hempty]
      rfl
    · have hfilled : line ∈ filled (line :: lines) :=
        List.mem_filter.2 ⟨List.mem_cons_self .., by simpa using hempty⟩
      obtain ⟨item, hitem, hline⟩ := exists_item h hfilled
      obtain ⟨c, cs, hcs⟩ := List.exists_cons_of_ne_nil hline.ne_nil
      have hc := hline.isLineChar_of_mem (plain item hitem) (hcs ▸ List.mem_cons_self ..)
      rw [hcs, List.cons_append]
      unfold skipMark
      split
      · rename_i heq
        rw [(List.cons.inj heq).1] at hc
        exact absurd hc (by decide)
      · rfl

/-- **A text of plain lines is read as the statements of its items.** -/
theorem ofText?_linesText :
    Entries.ofText? (linesText lines) = Entries.ofStatements? (items.map Item.statement) := by
  have hlength := Nat.lt_succ_of_le (length_le_linesText lines)
  simp only [Entries.ofText?, skipMark_linesText h plain,
    takeStatements?_lines lines _ h plain hlength, Option.bind_eq_bind, Option.bind_some]

end

end Toml

end PrefixCalculus
