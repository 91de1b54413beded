import PrefixCalculus.Proofs.SectionTables
set_option autoImplicit false

/-!
TOML is a lawful format: its writer writes the lines of the items, its reader builds their tables, and
a record that is read from a table has the fields of the table.
-/

namespace PrefixCalculus

namespace Toml

/-! Writing -/

namespace Section

def lines (s : Section) : List String :=
  ("[" ++ s.name ++ "]") :: s.fields.map fun (key, x) => key ++ " = " ++ x.text

theorem text_eq (s : Section) : s.text = linesText s.lines := by
  have hfields : (s.fields.map fun (key, x) => key ++ " = " ++ x.text ++ "\n")
      = (s.fields.map fun (key, x) => key ++ " = " ++ x.text).map (· ++ "\n") := by
    rw [List.map_map]
    rfl
  have hheader : "[" ++ s.name ++ "]\n" = "[" ++ s.name ++ "]" ++ "\n" := by
    have hend : "]\n" = "]" ++ "\n" := rfl
    rw [hend, String.append_assoc, String.append_assoc, String.append_assoc]
  rw [text, linesText, lines, List.map_cons, String.join_cons, hfields, hheader]

theorem writes_text (x : Scalar) : Writes x.text.toList x := by
  cases x with
  | integer n =>
    have htext : (toString n).toList = Decimal.digits n := by
      rw [Nat.toString_eq_repr, Nat.repr_eq_ofList_toDigits, String.toList_ofList]
      rfl
    exact htext ▸ .integer n
  | float x => exact .float x

theorem isLine_lines (s : Section) : List.Forall₂ (IsLine Writes) s.lines s.items := by
  refine .cons (.header s.name) ?_
  rw [List.forall₂_map_left_iff, List.forall₂_map_right_iff, List.forall₂_same]
  exact fun f _ => .field (writes_text f.2)

theorem filled_lines (s : Section) : filled s.lines = s.lines := by
  refine List.filter_eq_self.2 fun line hline => ?_
  rcases List.mem_cons.1 hline with rfl | hline
  · simp
  · obtain ⟨f, -, rfl⟩ := List.mem_map.1 hline
    simp

def linesOf : List Section → List String
  | [] => []
  | [s] => s.lines
  | s :: t :: doc => s.lines ++ "" :: linesOf (t :: doc)

theorem intercalate_text (doc : List Section) :
    "\n".intercalate (doc.map text) = linesText (linesOf doc) := by
  fun_induction linesOf doc with
  | case1 => rfl
  | case2 s => rw [List.map_singleton, String.intercalate_singleton, text_eq]
  | case3 s t doc ih =>
    rw [List.map_cons] at ih
    rw [List.map_cons, List.map_cons, String.intercalate_cons_cons, ih, text_eq, linesText,
      linesText, linesText, List.map_append, String.join_append, List.map_cons, String.join_cons,
      String.append_assoc]
    rfl

theorem isLine_linesOf (doc : List Section) :
    List.Forall₂ (IsLine Writes) (filled (linesOf doc)) (doc.flatMap items) := by
  fun_induction linesOf doc with
  | case1 => exact .nil
  | case2 s => simpa [filled_lines] using s.isLine_lines
  | case3 s t doc ih =>
    have hfilled : filled (s.lines ++ "" :: linesOf (t :: doc))
        = s.lines ++ filled (linesOf (t :: doc)) := by
      rw [filled, List.filter_append, ← filled, filled_lines, List.filter_cons_of_neg (by simp),
        filled]
    rw [hfilled, List.flatMap_cons]
    exact List.rel_append s.isLine_lines ih

end Section

theorem write?_eq {doc : List Section} (h : ∀ s ∈ doc, ∀ f ∈ s.fields, f.2.fits = true) :
    write? doc = some (linesText (Section.linesOf doc)) := by
  rw [write?, if_pos (by simpa using h), Section.intercalate_text]

/-! Reading -/

theorem isScalar_value (x : Scalar) : format.IsScalar x.value x := by
  cases x with
  | integer n => exact fun bound hn => Value.toNat?_integer n bound hn
  | float x => rfl

theorem isTable_entry (s : Section) : format.IsTable s.entry.2 s.fields :=
  ⟨s.table, rfl, List.forall₂_map_left_iff.2 (List.forall₂_same.2 fun f _ => ⟨rfl, isScalar_value f.2⟩)⟩

/-! Records -/

theorem record?_table {α : Type} (default : α) (fields : List (RecordField Value α)) {origin : Origin}
    {entries : Entries}
    (h : ∀ key ∈ entries.map Prod.fst, key ∈ fields.map RecordField.name) :
    record? default fields (.table origin entries)
      = fields.foldlM (RecordField.fill entries) default := by
  have hfold (fields : List (RecordField Value α)) : ∀ (place : ℕ) (a : α),
      (fields.zipIdx place).foldlM (fillFrom (.table origin entries)) a
        = fields.foldlM (RecordField.fill entries) a := by
    induction fields with
    | nil => exact fun _ _ => rfl
    | cons field fields ih =>
      intro place a
      have hread : (Value.table origin entries).field? field.name place = entries.lookup field.name :=
        rfl
      rw [List.zipIdx_cons, List.foldlM_cons, List.foldlM_cons, RecordField.fill, fillFrom, hread]
      cases entries.lookup field.name with
      | none => exact ih (place + 1) a
      | some v => exact bind_congr fun a => ih (place + 1) a
  rw [record?, if_pos (Value.isRecord_of_keys h)]
  exact hfold fields 0 default

theorem exists_table {v : Value} {entries : Entries} (h : format.entries? v = some entries) :
    ∃ origin, v = .table origin entries := by
  cases v with
  | table origin _ =>
    cases h
    exact ⟨origin, rfl⟩
  | _ => cases h

/-- **TOML is lawful.** -/
theorem format_lawful : format.Lawful where
  written doc h := ⟨_, write?_eq h, Section.isLine_linesOf doc⟩
  parsed lines doc plain h := by
    refine ⟨.table .header (doc.map Section.entry), ?_, doc.map Section.entry, rfl, ?_⟩
    · change (Entries.ofText? (linesText lines)).map (Value.table .header) = _
      rw [ofText?_document plain h]
      rfl
    · exact List.forall₂_map_left_iff.2 (List.forall₂_same.2 fun s _ => ⟨rfl, isTable_entry s⟩)
  defaulted default fields _ _ hentries _ hkeys := by
    obtain ⟨origin, rfl⟩ := exists_table hentries
    exact record?_table default fields hkeys

end Toml

end PrefixCalculus
