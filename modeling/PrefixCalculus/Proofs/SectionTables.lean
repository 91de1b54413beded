import PrefixCalculus.Proofs.PlainDocuments
set_option autoImplicit false

/-!
Sections and the tables that their lines build. A header adds an empty table at the end, each field an
entry at the end of that table, as long as no key comes twice. Main statement: a document of sections
is read as their tables, in order.
-/

namespace PrefixCalculus

namespace Toml

/-! Entries at the end -/

namespace Entries

variable {name : String} {entries : Entries}

theorem put_of_not_mem (h : name ∉ entries.map Prod.fst) (v : Value) :
    put name v entries = entries ++ [(name, v)] := by
  induction entries with
  | nil => rfl
  | cons e es ih =>
    rw [List.map_cons, List.mem_cons, not_or] at h
    rw [put, if_neg (Ne.symm h.1), ih h.2, List.cons_append]

theorem put_last (h : name ∉ entries.map Prod.fst) (v w : Value) :
    put name w (entries ++ [(name, v)]) = entries ++ [(name, w)] := by
  induction entries with
  | nil => simp [put]
  | cons e es ih =>
    rw [List.map_cons, List.mem_cons, not_or] at h
    rw [List.cons_append, put, if_neg (Ne.symm h.1), ih h.2, List.cons_append]

theorem lookup_of_not_mem (h : name ∉ entries.map Prod.fst) : entries.lookup name = none := by
  rw [List.lookup_eq_none_iff]
  intro e he
  rw [bne_iff_ne]
  rintro rfl
  exact h (List.mem_map_of_mem he)

theorem lookup_last (h : name ∉ entries.map Prod.fst) (v : Value) :
    (entries ++ [(name, v)]).lookup name = some v := by
  rw [List.lookup_append, lookup_of_not_mem h, List.lookup_cons_self, Option.none_or]

end Entries

theorem Value.isRecord_of_keys {origin : Origin} {entries : Entries} {names : List String}
    (h : ∀ key ∈ entries.map Prod.fst, key ∈ names) :
    (Value.table origin entries).isRecord names = true := by
  have hnone : entries.filter (fun e => !names.contains e.1) = [] := by
    rw [List.filter_eq_nil_iff]
    intro e he
    simpa using h e.1 (List.mem_map_of_mem he)
  rw [Value.isRecord, hnone, entriesReadable]

/-! Steps of a draft -/

namespace Draft

variable {name : String} {entries : Entries} (h : name ∉ entries.map Prod.fst)
include h

theorem add_table (here : List String) : add ⟨entries, here⟩ (.table ⟨[], name⟩)
    = some ⟨entries ++ [(name, .table .header [])], [name]⟩ := by
  have hopen : openTable name entries = some (entries ++ [(name, .table .header [])]) := by
    simp only [openTable, Entries.lookup_of_not_mem h, Entries.put_of_not_mem h]
  simp only [add, change, reach, hopen, Option.map_some, List.nil_append]

theorem add_assign {key : String} {table : Entries} (hkey : key ∉ table.map Prod.fst) (v : Value) :
    add ⟨entries ++ [(name, .table .header table)], [name]⟩ (.assign ⟨[], key⟩ v)
      = some ⟨entries ++ [(name, .table .header (table ++ [(key, v)]))], [name]⟩ := by
  have hinsert : table.insert? key v = some (table ++ [(key, v)]) := by
    simp [Entries.insert?, Entries.lookup_of_not_mem hkey, Entries.put_of_not_mem hkey]
  have hassign : assign ⟨[], key⟩ v table = some (table ++ [(key, v)]) := by
    simp only [assign, reach, List.isEmpty_nil, Bool.true_or, if_true, hinsert]
  have hadmits : Origin.header.admits .implied = true := rfl
  simp only [add, change, reach, Entries.lookup_last h, hadmits, if_true, hassign,
    Option.bind_eq_bind, Option.bind_some, Option.pure_def, Option.map_some, Entries.put_last h]

theorem foldlM_assign (fields : List (String × Scalar)) : ∀ table : Entries,
    (table.map Prod.fst ++ fields.map Prod.fst).Nodup →
    (fields.map fun f => Statement.assign ⟨[], f.1⟩ f.2.value).foldlM add
        ⟨entries ++ [(name, .table .header table)], [name]⟩
      = some ⟨entries ++ [(name, .table .header (table ++ fields.map fun f => (f.1, f.2.value)))],
          [name]⟩ := by
  induction fields with
  | nil =>
    intro table _
    simp
  | cons f fields ih =>
    intro table hnodup
    have hkey : f.1 ∉ table.map Prod.fst := by
      intro hmem
      exact (List.nodup_append.1 hnodup).2.2 _ hmem _ (by simp) rfl
    have hrest : ((table ++ [(f.1, f.2.value)]).map Prod.fst ++ fields.map Prod.fst).Nodup := by
      simpa using hnodup
    rw [List.map_cons, List.foldlM_cons, add_assign h hkey]
    refine (ih _ hrest).trans ?_
    rw [List.append_assoc, List.map_cons, List.singleton_append]

end Draft

/-! Sections -/

namespace Section

def table (s : Section) : Entries :=
  s.fields.map fun f => (f.1, f.2.value)

def entry (s : Section) : String × Value :=
  (s.name, .table .header s.table)

theorem foldlM_items (s : Section) {entries : Entries} (h : s.name ∉ entries.map Prod.fst)
    (keys : (s.fields.map Prod.fst).Nodup) (here : List String) :
    (s.items.map Item.statement).foldlM Draft.add ⟨entries, here⟩
      = some ⟨entries ++ [s.entry], [s.name]⟩ := by
  rw [items, List.map_cons, List.map_map, List.foldlM_cons]
  refine (congrArg (· >>= _) (Draft.add_table h here)).trans ?_
  exact Draft.foldlM_assign h s.fields [] keys

theorem foldlM_sections (doc : List Section) : ∀ (entries : Entries) (here : List String),
    (entries.map Prod.fst ++ doc.map name).Nodup → (∀ s ∈ doc, (s.fields.map Prod.fst).Nodup) →
    (((doc.flatMap items).map Item.statement).foldlM Draft.add ⟨entries, here⟩).map Draft.entries
      = some (entries ++ doc.map entry) := by
  induction doc with
  | nil =>
    intro entries here _ _
    simp
  | cons s doc ih =>
    intro entries here hnodup keys
    obtain ⟨hkeys, hrest⟩ := List.forall_mem_cons.1 keys
    have hname : s.name ∉ entries.map Prod.fst := by
      intro hmem
      exact (List.nodup_append.1 hnodup).2.2 _ hmem _ (by simp) rfl
    have hnodup' : ((entries ++ [s.entry]).map Prod.fst ++ doc.map name).Nodup := by
      simpa [entry] using hnodup
    rw [List.flatMap_cons, List.map_append, List.foldlM_append, foldlM_items s hname hkeys]
    refine (ih _ _ hnodup' hrest).trans ?_
    rw [List.append_assoc, List.map_cons, List.singleton_append]

end Section

/-- **A document of sections is read as their tables**, in order. -/
theorem ofText?_document {doc : List Section} (plain : IsPlain doc) {lines : List String}
    (h : List.Forall₂ (IsLine Says) (filled lines) (doc.flatMap Section.items)) :
    Entries.ofText? (linesText lines) = some (doc.map Section.entry) := by
  rw [ofText?_linesText h fun _ => plain.item]
  exact Section.foldlM_sections doc [] [] plain.names plain.keys

end Toml

end PrefixCalculus
