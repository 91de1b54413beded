import PrefixCalculus.Proofs.LawfulDocuments
import PrefixCalculus.Settings
set_option autoImplicit false

/-!
Settings and their document, in any lawful format. Main statement: settings that a document can hold
are read back from it as they are, whatever doubles are among them, and without the lines of certain
keys with exactly those fields at their defaults.
-/

namespace PrefixCalculus

open Toml

/-! Fields of a record -/

namespace Toml

theorem lookup_filter_keys (keys : List String) (fields : List (String × Scalar)) (key : String) :
    (fields.filter fun f => !keys.contains f.1).lookup key
      = if key ∈ keys then none else fields.lookup key := by
  induction fields with
  | nil => simp
  | cons f fields ih =>
    rw [List.lookup_cons]
    by_cases hf : f.1 ∈ keys
    · rw [List.filter_cons_of_neg (by simpa using hf), ih]
      by_cases hkey : key = f.1
      · rw [hkey, if_pos hf, if_pos hf]
      · rw [beq_false_of_ne hkey]
    · rw [List.filter_cons_of_pos (by simpa using hf), List.lookup_cons, ih]
      by_cases hkey : key = f.1
      · rw [hkey, if_neg hf, if_neg hf, beq_self_eq_true]
      · rw [beq_false_of_ne hkey]

theorem rel_lookup {V W : Type} {R : V → W → Prop} {entries : List (String × V)}
    {fields : List (String × W)}
    (h : List.Forall₂ (fun e f => e.1 = f.1 ∧ R e.2 f.2) entries fields) (key : String) :
    Option.Rel R (entries.lookup key) (fields.lookup key) := by
  induction h with
  | nil => exact .none
  | @cons e f entries fields hhead _ ih =>
    rw [List.lookup_cons, List.lookup_cons, hhead.1]
    split
    · exact .some hhead.2
    · exact ih

theorem map_fst_eq {V W : Type} {name : W → String} {R : String × V → W → Prop}
    {entries : List (String × V)} {parts : List W}
    (h : List.Forall₂ (fun e part => e.1 = name part ∧ R e part) entries parts) :
    entries.map Prod.fst = parts.map name := by
  induction h with
  | nil => rfl
  | cons hhead _ ih => rw [List.map_cons, List.map_cons, hhead.1, ih]

section

variable {F : Format} {α β : Type} {keys : List String} {entries : List (String × F.Value)}
  {fields : List (String × Scalar)}
  (table : List.Forall₂ (fun e f => e.1 = f.1 ∧ F.IsScalar e.2 f.2) entries
    (fields.filter fun f => !keys.contains f.1))
include table

theorem fill_without {field : RecordField F.Value α} {x : Scalar} {y : β} {put : β → α → α}
    {get : α → β} (hx : fields.lookup field.name = some x)
    (hread : ∀ v a, F.IsScalar v x → field.read v a = some (put y a))
    (hget : ∀ a, put (get a) a = a) (a : α) :
    field.fill entries a = some (put (if field.name ∈ keys then get a else y) a) := by
  have hlookup := rel_lookup table field.name
  rw [lookup_filter_keys, hx] at hlookup
  rw [RecordField.fill]
  generalize entries.lookup field.name = found at hlookup ⊢
  split at hlookup
  · cases hlookup
    rw [if_pos ‹_›, hget]
  · cases hlookup with
    | some hscalar =>
      rw [if_neg ‹_›]
      exact hread _ a hscalar

theorem mem_keys_of_mem {key : String} (h : key ∈ entries.map Prod.fst) :
    key ∈ fields.map Prod.fst := by
  rw [map_fst_eq table] at h
  exact (List.filter_sublist.map Prod.fst).subset h

theorem nodup_keys (keys : (fields.map Prod.fst).Nodup) : (entries.map Prod.fst).Nodup := by
  rw [map_fst_eq table]
  exact keys.sublist (List.filter_sublist.map Prod.fst)

end

end Toml

namespace Settings

/-! The document -/

def isBareName (name : String) : Bool :=
  !name.toList.isEmpty && name.toList.all isBare

theorem isName_of_isBareName {name : String} (h : isBareName name = true) : IsName name := by
  rw [isBareName, Bool.and_eq_true, Bool.not_eq_true'] at h
  exact ⟨by simpa using h.1, List.all_eq_true.1 h.2⟩

theorem isPlain_sections (s : Settings) : IsPlain s.sections where
  isName := by
    have h : (s.sections.map Section.name).all isBareName = true := by
      change ["newton", "diff", "pretty"].all isBareName = true
      decide
    rw [List.all_map] at h
    exact fun part hpart => isName_of_isBareName (List.all_eq_true.1 h part hpart)
  names := by
    change ["newton", "diff", "pretty"].Nodup
    decide
  isKey := by
    have h : (s.sections.map fun part => part.fields.map Prod.fst).all (List.all · isBareName)
        = true := by
      change [["step_tolerance", "abs_tolerance", "max_iterations", "lower_bound", "upper_bound"],
        ["max_unrolled_iterations"], ["width"]].all (List.all · isBareName) = true
      decide
    rw [List.all_map] at h
    intro part hpart f hf
    have hkeys := List.all_eq_true.1 h part hpart
    exact isName_of_isBareName (List.all_eq_true.1 hkeys f.1 (List.mem_map_of_mem hf))
  keys := by
    have h : (s.sections.map fun part => part.fields.map Prod.fst).all (fun keys => keys.Nodup)
        = true := by
      change ([["step_tolerance", "abs_tolerance", "max_iterations", "lower_bound", "upper_bound"],
        ["max_unrolled_iterations"], ["width"]].all fun keys => keys.Nodup) = true
      decide
    rw [List.all_map] at h
    exact fun part hpart => of_decide_eq_true (List.all_eq_true.1 h part hpart)

theorem fits_sections {s : Settings} (hunroll : s.unrollLimit.toNat ≤ 2 ^ 63 - 1)
    (hwidth : s.lineWidth.toNat ≤ 2 ^ 63 - 1) :
    ∀ part ∈ s.sections, ∀ f ∈ part.fields, f.2.fits = true := by
  have hmax : Int64.maxValue.toInt = 2 ^ 63 - 1 := by decide
  have hfits {n : ℕ} (hn : n ≤ 2 ^ 63 - 1) : (Scalar.integer n).fits = true := by
    rw [Scalar.fits, hmax, decide_eq_true_eq]
    omega
  have hiterations := s.search.maxIterations.toNat_lt
  simp only [sections, searchSection, wordSection, List.forall_mem_cons, List.not_mem_nil,
    false_imp_iff, implies_true, and_true]
  exact ⟨⟨rfl, rfl, hfits (by omega), rfl, rfl⟩, hfits hunroll, hfits hwidth⟩

def without (keys : List String) (s : Settings) : Settings :=
  let leave {α : Type} (key : String) (default value : α) : α :=
    if key ∈ keys then default else value
  { search :=
      { stepTolerance := leave "step_tolerance" default.search.stepTolerance s.search.stepTolerance
        valueTolerance := leave "abs_tolerance" default.search.valueTolerance s.search.valueTolerance
        maxIterations := leave "max_iterations" default.search.maxIterations s.search.maxIterations
        lowerBound := leave "lower_bound" default.search.lowerBound s.search.lowerBound
        upperBound := leave "upper_bound" default.search.upperBound s.search.upperBound }
    unrollLimit := leave "max_unrolled_iterations" default.unrollLimit s.unrollLimit
    lineWidth := leave "width" default.lineWidth s.lineWidth }

theorem without_nil (s : Settings) : s.without [] = s := by
  simp only [without, List.not_mem_nil, if_false]

/-! Reading the document -/

section

variable {F : Format} (keys : List String) {entries : List (String × F.Value)} {α : Type}

section

variable {fields : List (String × Scalar)}
  (table : List.Forall₂ (fun e f => e.1 = f.1 ∧ F.IsScalar e.2 f.2) entries
    (fields.filter fun f => !keys.contains f.1)) {name : String} (a : α)
include table

theorem fill_floatField {x : Float} (hx : fields.lookup name = some (.float x))
    {put : Float → α → α} (get : α → Float) (hget : ∀ a, put (get a) a = a) :
    (floatField F name put).fill entries a = some (put (if name ∈ keys then get a else x) a) := by
  have hread (v : F.Value) (a : α) (h : F.float? v = some x) :
      (F.float? v).map (put · a) = some (put x a) := by
    rw [h, Option.map_some]
  exact fill_without table hx hread hget a

theorem fill_wholeField {β : Type} {bound n : ℕ} (hx : fields.lookup name = some (.integer n))
    (hn : n < bound) {ofNat : ℕ → β} {y : β} (hy : ofNat n = y) (put : β → α → α) (get : α → β)
    (hget : ∀ a, put (get a) a = a) :
    (wholeField F name bound fun n => put (ofNat n)).fill entries a
      = some (put (if name ∈ keys then get a else y) a) := by
  have hread (v : F.Value) (a : α) (h : ∀ bound, n < bound → F.whole? bound v = some n) :
      (F.whole? bound v).map (fun n => put (ofNat n) a) = some (put y a) := by
    rw [h bound hn, Option.map_some, hy]
  exact fill_without table hx hread hget a

end

theorem fill_recordField {β : Type} {parts : List (String × List (String × Scalar))}
    (tables : List.Forall₂ (fun e f => e.1 = f.1 ∧ F.IsTable e.2 f.2) entries parts) {name : String}
    (a : α) {default : β} {fields : List (RecordField F.Value β)} {put : β → α → α}
    {part : List (String × Scalar)} {b : β} (hpart : parts.lookup name = some part)
    (hread : ∀ v, F.IsTable v part → F.record? default fields v = some b) :
    (recordField F name default fields put).fill entries a = some (put b a) := by
  have hlookup := rel_lookup tables name
  rw [hpart] at hlookup
  rw [RecordField.fill, recordField]
  generalize entries.lookup name = found at hlookup ⊢
  cases hlookup with
  | some htable =>
    simp only [hread _ htable, Option.map_some]

theorem foldlM_of_fill {fields : List (RecordField F.Value α)} {field : RecordField F.Value α}
    {a b : α} {r : Option α} (hfield : field.fill entries a = some b)
    (hrest : fields.foldlM (RecordField.fill entries) b = r) :
    (field :: fields).foldlM (RecordField.fill entries) a = r := by
  rw [List.foldlM_cons, hfield]
  exact hrest

end

section

variable {F : Format} (lawful : F.Lawful) (s : Settings) (keys : List String) {v : F.Value}
include lawful

theorem record?_searchFields (table : F.IsTable v ((searchSection s.search).without keys).fields) :
    F.record? default.search (searchFields F) v = some (s.without keys).search := by
  obtain ⟨entries, hentries, table⟩ := table
  have distinct : ((searchSection s.search).fields.map Prod.fst).Nodup :=
    s.isPlain_sections.keys _ (List.mem_cons_self ..)
  rw [lawful.defaulted default.search (searchFields F) hentries (nodup_keys table distinct)
    fun key => mem_keys_of_mem table]
  refine foldlM_of_fill (fill_floatField keys table _ rfl SearchSettings.stepTolerance
    fun _ => rfl) ?_
  refine foldlM_of_fill (fill_floatField keys table _ rfl SearchSettings.valueTolerance
    fun _ => rfl) ?_
  refine foldlM_of_fill (fill_wholeField keys table _ rfl s.search.maxIterations.toNat_lt
    UInt32.ofNat_toNat (fun n s => { s with maxIterations := n }) SearchSettings.maxIterations
    fun _ => rfl) ?_
  refine foldlM_of_fill (fill_floatField keys table _ rfl SearchSettings.lowerBound
    fun _ => rfl) ?_
  refine foldlM_of_fill (fill_floatField keys table _ rfl SearchSettings.upperBound
    fun _ => rfl) ?_
  rfl

theorem record?_wordFields {name key : String} {n : UInt64} (default : UInt64)
    (table : F.IsTable v ((wordSection name key n).without keys).fields) :
    F.record? default (wordFields F key) v = some (if key ∈ keys then default else n) := by
  obtain ⟨entries, hentries, table⟩ := table
  rw [lawful.defaulted default (wordFields F key) hentries
    (nodup_keys table (List.nodup_singleton key)) fun key => mem_keys_of_mem table]
  exact foldlM_of_fill (fill_wholeField keys table _ List.lookup_cons_self n.toNat_lt
    UInt64.ofNat_toNat (fun n _ => n) (fun n => n) fun _ => rfl) rfl

/-- A document without certain keys is read as the settings without them. -/
theorem record?_fields (document : F.IsDocument v (s.sections.map (Section.without keys))) :
    F.record? default (fields F) v = some (s.without keys) := by
  obtain ⟨entries, hentries, document⟩ := document
  have hnames : entries.map Prod.fst = ["newton", "diff", "pretty"] := map_fst_eq document
  have distinct : (entries.map Prod.fst).Nodup := by
    rw [hnames]
    decide
  have known : ∀ key ∈ entries.map Prod.fst, key ∈ (fields F).map RecordField.name := by
    rw [hnames]
    exact fun _ h => h
  rw [lawful.defaulted default (fields F) hentries distinct known]
  have tables : List.Forall₂ (fun e f => e.1 = f.1 ∧ F.IsTable e.2 f.2) entries
      ((s.sections.map (Section.without keys)).map fun part => (part.name, part.fields)) :=
    List.forall₂_map_right_iff.2 document
  refine foldlM_of_fill (fill_recordField tables _ rfl fun v =>
    record?_searchFields lawful s keys) ?_
  refine foldlM_of_fill (fill_recordField tables _ rfl fun v =>
    record?_wordFields lawful keys default.unrollLimit) ?_
  refine foldlM_of_fill (fill_recordField tables _ rfl fun v =>
    record?_wordFields lawful keys default.lineWidth) ?_
  rfl

/-- **Settings survive their document**, in any lawful format and whatever doubles are among them: what
is written is read back as it is, and without the lines of certain keys as the settings with the
defaults of these. -/
theorem document_read_back (hunroll : s.unrollLimit.toNat ≤ 2 ^ 63 - 1)
    (hwidth : s.lineWidth.toNat ≤ 2 ^ 63 - 1) :
    ∃ text, save? F s = some text ∧ load? F text = some s ∧
      ∀ keys, load? F (withoutKeys keys text) = some (s.without keys) := by
  have plain := s.isPlain_sections
  have fits := fits_sections hunroll hwidth
  obtain ⟨lines, hwrite, hwritten⟩ := lawful.written s.sections fits
  have hsays := says_lines hwritten (fits_items fits)
  have hread (keys : List String) : load? F (withoutKeys keys (linesText lines))
      = some (s.without keys) := by
    obtain ⟨kept, hkept, hlines⟩ := exists_lines_withoutKeys plain hsays keys
    obtain ⟨v, hparse, document⟩ := lawful.parsed kept _ (plain.without keys) hlines
    rw [load?, hkept, hparse, Option.bind_some]
    exact record?_fields lawful s keys document
  refine ⟨_, hwrite, ?_, hread⟩
  obtain ⟨v, hparse, document⟩ := lawful.parsed lines _ plain hsays
  rw [load?, hparse, Option.bind_some, record?_fields lawful s [] document, without_nil]

end

/-- Settings with doubles that have no digits, or more than three hundred. -/
def extreme : Settings where
  search :=
    { stepTolerance := nan
      valueTolerance := -0.0
      maxIterations := 0
      lowerBound := -infinity
      upperBound := 1e308 }
  unrollLimit := 9223372036854775807
  lineWidth := 0

theorem extreme_document_read_back :
    Toml.format.Lawful ∧
      (extreme.unrollLimit.toNat ≤ 2 ^ 63 - 1 ∧ extreme.lineWidth.toNat ≤ 2 ^ 63 - 1) ∧
      ∃ text, save? Toml.format extreme = some text ∧ load? Toml.format text = some extreme ∧
        load? Toml.format (withoutKeys ["abs_tolerance", "width"] text)
          = some { extreme with
              search := { extreme.search with valueTolerance := 1e-10 }
              lineWidth := 80 } := by
  have hunroll : extreme.unrollLimit.toNat ≤ 2 ^ 63 - 1 := by decide
  have hwidth : extreme.lineWidth.toNat ≤ 2 ^ 63 - 1 := by decide
  obtain ⟨text, htext, hread, hkeys⟩ := document_read_back Toml.format_lawful extreme hunroll hwidth
  refine ⟨Toml.format_lawful, ⟨hunroll, hwidth⟩, text, htext, hread, (hkeys _).trans ?_⟩
  rfl

end Settings

end PrefixCalculus
