import Mathlib.Data.List.Nodup
import PrefixCalculus.Proofs.WrittenNumbers
set_option autoImplicit false

/-!
Lines of a document, whichever format they are for. Main statement: without the lines that set certain
keys, the text of a document is the text of the document without the keys.
-/

namespace PrefixCalculus

namespace Toml

/-! Characters of lines -/

def isLineChar (c : Char) : Bool :=
  isWordChar c || [' ', '=', '[', ']'].contains c

theorem isWordChar_of_isBare {c : Char} (h : isBare c = true) : isWordChar c = true := by
  rw [isWordChar, h, Bool.true_or]

theorem isLineChar_of_isWordChar {c : Char} (h : isWordChar c = true) : isLineChar c = true := by
  rw [isLineChar, h, Bool.true_or]

def Item.IsPlain : Item → Prop
  | .header name => IsName name
  | .field key _ => IsName key

section

variable {line : String} {item : Item} (h : IsLine Says line item)
include h

theorem IsLine.ne_nil : line.toList ≠ [] := by
  cases h with
  | header => simp
  | field => simp

variable (plain : item.IsPlain)
include plain

theorem IsLine.isLineChar_of_mem {c : Char} (hc : c ∈ line.toList) : isLineChar c = true := by
  have hname {name : String} (h : IsName name) (hc : c ∈ name.toList) : isLineChar c = true :=
    isLineChar_of_isWordChar (isWordChar_of_isBare (h.isBare c hc))
  cases h with
  | header name =>
    simp only [String.toList_append, List.mem_append] at hc
    rcases hc with (hc | hc) | hc
    · rw [List.mem_singleton.1 hc]
      decide
    · exact hname plain hc
    · rw [List.mem_singleton.1 hc]
      decide
  | field hword =>
    simp only [String.toList_append, List.mem_append] at hc
    rcases hc with (hc | hc) | hc
    · exact hname plain hc
    · exact List.all_eq_true.1 rfl c hc
    · exact isLineChar_of_isWordChar (hword.isWordChar_of_mem hc)

end

def Item.fits : Item → Bool
  | .header _ => true
  | .field _ x => x.fits

theorem says_lines {lines : List String} {items : List Item}
    (h : List.Forall₂ (IsLine Writes) lines items) (fits : ∀ item ∈ items, item.fits = true) :
    List.Forall₂ (IsLine Says) lines items := by
  induction h with
  | nil => exact .nil
  | cons hline _ ih =>
    obtain ⟨hfits, hrest⟩ := List.forall_mem_cons.1 fits
    refine .cons ?_ (ih hrest)
    cases hline with
    | header name => exact .header name
    | field hword => exact .field (says_of_writes hword hfits)

/-! Lines of a text -/

theorem toList_linesText_cons (line : String) (lines : List String) :
    (linesText (line :: lines)).toList = line.toList ++ '\n' :: (linesText lines).toList := by
  simp [linesText, String.join_cons]

theorem toList_linesText (lines : List String) :
    (linesText lines).toList = ['\n'].intercalate (lines.map String.toList ++ [[]]) := by
  induction lines with
  | nil => rfl
  | cons line lines ih =>
    rw [toList_linesText_cons, ih, List.map_cons, List.cons_append,
      List.intercalate_cons_of_ne_nil (by simp), List.append_assoc, List.singleton_append]

def isKept (keys : List String) (line : String) : Bool :=
  !(lineKey? line.toList).any keys.contains

theorem withoutKeys_linesText (keys : List String) {lines : List String}
    (h : ∀ line ∈ lines, '\n' ∉ line.toList) :
    withoutKeys keys (linesText lines) = linesText (lines.filter (isKept keys)) := by
  have hsplit : (linesText lines).toList.splitOn '\n' = lines.map String.toList ++ [[]] := by
    rw [toList_linesText, List.splitOn_intercalate]
    · intro line hline
      rcases List.mem_append.1 hline with hline | hline
      · obtain ⟨line, hmem, rfl⟩ := List.mem_map.1 hline
        exact h line hmem
      · rw [List.mem_singleton.1 hline]
        exact List.not_mem_nil
    · simp
  have hkept : (fun line => !(lineKey? line).any keys.contains) ∘ String.toList = isKept keys := rfl
  rw [← String.toList_inj, withoutKeys, String.toList_ofList, hsplit, List.filter_append,
    List.filter_map, hkept, toList_linesText]
  rfl

/-! Items left out -/

def Item.key? : Item → Option String
  | .header _ => none
  | .field key _ => some key

def Item.isKept (keys : List String) (item : Item) : Bool :=
  !item.key?.any keys.contains

theorem IsLine.isKept_eq {line : String} {item : Item} (h : IsLine Says line item)
    (plain : item.IsPlain) (keys : List String) : Toml.isKept keys line = item.isKept keys := by
  rw [Toml.isKept, Item.isKept]
  congr 2
  cases h with
  | header name => simp [lineKey?, Item.key?, isBare, Decimal.isDigit]
  | @field key word x hword =>
    have hspan : (key ++ " = " ++ word).toList.span isBare
        = (key.toList, ' ' :: '=' :: ' ' :: word.toList) := by
      have htext : (key ++ " = " ++ word).toList
          = key.toList ++ ' ' :: '=' :: ' ' :: word.toList := by simp
      rw [htext]
      exact span_of_all plain.isBare (by rintro c ⟨⟩; decide)
    simp only [lineKey?, hspan, Item.key?, String.ofList_toList]

theorem filled_filter (keys : List String) (lines : List String) :
    filled (lines.filter (isKept keys)) = (filled lines).filter (isKept keys) := by
  rw [filled, filled, List.filter_filter, List.filter_filter]
  exact List.filter_congr fun line _ => Bool.and_comm _ _

theorem exists_item {lines : List String} {items : List Item}
    (h : List.Forall₂ (IsLine Says) lines items) {line : String} (hmem : line ∈ lines) :
    ∃ item ∈ items, IsLine Says line item := by
  induction h with
  | nil => cases hmem
  | @cons other item lines items hline _ ih =>
    rcases List.mem_cons.1 hmem with rfl | hmem
    · exact ⟨item, List.mem_cons_self .., hline⟩
    · obtain ⟨item', hitem, hline'⟩ := ih hmem
      exact ⟨item', List.mem_cons_of_mem _ hitem, hline'⟩

theorem isLine_filter {lines : List String} {items : List Item}
    (h : List.Forall₂ (IsLine Says) lines items) (plain : ∀ item ∈ items, item.IsPlain)
    (keys : List String) :
    List.Forall₂ (IsLine Says) (lines.filter (isKept keys)) (items.filter (Item.isKept keys)) := by
  induction h with
  | nil => exact .nil
  | @cons line item lines items hline _ ih =>
    have hrest := ih fun item hmem => plain item (List.mem_cons_of_mem _ hmem)
    have hkept := hline.isKept_eq (plain item (List.mem_cons_self ..)) keys
    rw [List.filter_cons, List.filter_cons, hkept]
    split
    · exact .cons hline hrest
    · exact hrest

/-! Documents -/

namespace Section

variable (keys : List String) (s : Section)

def without : Section :=
  ⟨s.name, s.fields.filter fun f => !keys.contains f.1⟩

theorem filter_items : s.items.filter (Item.isKept keys) = (s.without keys).items := by
  have hfields : (s.fields.map fun f => Item.field f.1 f.2).filter (Item.isKept keys)
      = (s.fields.filter fun f => !keys.contains f.1).map fun f => Item.field f.1 f.2 := by
    rw [List.filter_map]
    rfl
  rw [items, List.filter_cons_of_pos rfl, hfields]
  rfl

end Section

theorem filter_items (keys : List String) (doc : List Section) :
    (doc.flatMap Section.items).filter (Item.isKept keys)
      = (doc.map (Section.without keys)).flatMap Section.items := by
  rw [List.filter_flatMap, List.flatMap_map]
  exact List.flatMap_congr fun s _ => Section.filter_items keys s

theorem fits_items {doc : List Section} (h : ∀ s ∈ doc, ∀ f ∈ s.fields, f.2.fits = true) :
    ∀ item ∈ doc.flatMap Section.items, item.fits = true := by
  intro item hitem
  obtain ⟨s, hs, hitem⟩ := List.mem_flatMap.1 hitem
  rcases List.mem_cons.1 hitem with rfl | hitem
  · rfl
  · obtain ⟨f, hf, rfl⟩ := List.mem_map.1 hitem
    exact h s hs f hf

namespace IsPlain

variable {doc : List Section} (plain : IsPlain doc)
include plain

theorem item {item : Item} (h : item ∈ doc.flatMap Section.items) : item.IsPlain := by
  obtain ⟨s, hs, hitem⟩ := List.mem_flatMap.1 h
  rcases List.mem_cons.1 hitem with rfl | hitem
  · exact plain.isName s hs
  · obtain ⟨f, hf, rfl⟩ := List.mem_map.1 hitem
    exact plain.isKey s hs f hf

theorem without (keys : List String) : IsPlain (doc.map (Section.without keys)) where
  isName := List.forall_mem_map.2 plain.isName
  names := by
    rw [List.map_map]
    exact plain.names
  isKey := List.forall_mem_map.2 fun s hs f hf => plain.isKey s hs f (List.mem_of_mem_filter hf)
  keys := List.forall_mem_map.2 fun s hs =>
    (plain.keys s hs).sublist (List.filter_sublist.map Prod.fst)

end IsPlain

/-- **What is left of a text are the lines of the document without the keys.** -/
theorem exists_lines_withoutKeys {doc : List Section} (plain : IsPlain doc) {lines : List String}
    (h : List.Forall₂ (IsLine Says) (filled lines) (doc.flatMap Section.items))
    (keys : List String) :
    ∃ kept, withoutKeys keys (linesText lines) = linesText kept ∧
      List.Forall₂ (IsLine Says) (filled kept)
        ((doc.map (Section.without keys)).flatMap Section.items) := by
  have hnewline : ∀ line ∈ lines, '\n' ∉ line.toList := by
    intro line hmem hc
    by_cases hempty : line.isEmpty = true
    · rw [String.isEmpty_iff.1 hempty] at hc
      exact absurd hc List.not_mem_nil
    · have hfilled : line ∈ filled lines := List.mem_filter.2 ⟨hmem, by simpa using hempty⟩
      obtain ⟨item, hitem, hline⟩ := exists_item h hfilled
      exact absurd (hline.isLineChar_of_mem (plain.item hitem) hc) (by decide)
  refine ⟨_, withoutKeys_linesText keys hnewline, ?_⟩
  rw [filled_filter, ← filter_items]
  exact isLine_filter h (fun _ => plain.item) keys

end Toml

end PrefixCalculus
