import PrefixCalculus.Layout.Renderer
set_option autoImplicit false

/-!
The characters of a laid out document. Main statements: whatever the width, a layout is the texts of
the document with a space or the start of a line at each break; documents that are alike are laid out
with the same characters; and a character that is no blank comes as often as in the texts.
-/

namespace PrefixCalculus

namespace Piece

variable {α : Type}

def plain (pieces : List (Piece α)) : List Char :=
  pieces.flatMap fun p => (p.render fun _ s => s).toList

@[simp] theorem plain_append (a b : List (Piece α)) : plain (a ++ b) = plain a ++ plain b :=
  List.flatMap_append

@[simp] theorem plain_singleton (p : Piece α) : plain [p] = (p.render fun _ s => s).toList := by
  simp [plain]

theorem toList_renderAll (pieces : List (Piece α)) :
    (renderAll (fun _ s => s) pieces).toList = plain pieces := by
  have h : ∀ acc : String, (pieces.foldl (fun acc p => acc ++ p.render fun _ s => s) acc).toList
      = acc.toList ++ plain pieces := by
    induction pieces with
    | nil => intro acc; simp [plain]
    | cons p pieces ih =>
      intro acc
      rw [List.foldl_cons, ih]
      simp [plain]
  rw [renderAll, h]
  rfl

end Piece

namespace Document

open Piece (plain)

variable {α : Type}

theorem renders_text {mark : α} {s : String} {cs : List Char} :
    Renders (.text mark s) cs ↔ cs = s.toList := by
  constructor
  · rintro ⟨⟩
    rfl
  · rintro rfl
    exact .text mark s

theorem renders_append {a b : Document α} {cs : List Char} :
    (a ++ b).Renders cs ↔
      ∃ first second, cs = first ++ second ∧ a.Renders first ∧ b.Renders second := by
  constructor
  · intro h
    change Renders (.append a b) cs at h
    cases h with
    | append ha hb => exact ⟨_, _, rfl, ha, hb⟩
  · rintro ⟨first, second, rfl, ha, hb⟩
    exact .append ha hb

theorem renders_line {cs : List Char} : Renders (.line : Document α) cs ↔
    cs = [' '] ∨ ∃ indent, cs = '\n' :: List.replicate indent ' ' := by
  constructor
  · intro h
    cases h with
    | space => exact .inl rfl
    | newline indent => exact .inr ⟨indent, rfl⟩
  · rintro (rfl | ⟨indent, rfl⟩)
    · exact .space
    · exact .newline indent

theorem renders_nest {more : Nat} {d : Document α} {cs : List Char} :
    Renders (.nest more d) cs ↔ d.Renders cs := by
  constructor
  · intro h
    cases h with
    | nest _ h => exact h
  · exact .nest more

theorem renders_group {d : Document α} {cs : List Char} : Renders (.group d) cs ↔ d.Renders cs := by
  constructor
  · intro h
    cases h with
    | group h => exact h
  · exact .group

theorem renders_layoutOnto (width : Nat) (d : Document α) :
    ∀ (indent : Nat) (flat : Bool) (column : Nat) (next : Nat → Bool) (done : List (Piece α)),
      ∃ cs, d.Renders cs ∧ plain (d.layoutOnto width indent flat column next done).1.reverse
        = plain done.reverse ++ cs := by
  induction d with
  | text mark s => intros; exact ⟨_, .text mark s, by simp [layoutOnto, Piece.render]⟩
  | line =>
    intro indent flat _ _ _
    cases flat with
    | true => exact ⟨_, .space, by simp [layoutOnto, Piece.render]⟩
    | false => exact ⟨_, .newline indent, by simp [layoutOnto, Piece.render]⟩
  | append a b iha ihb =>
    intro indent flat column next done
    obtain ⟨cs, hcs, ha⟩ := iha indent flat column (fun column => b.fits width false column next) done
    obtain ⟨ds, hds, hb⟩ := ihb indent flat _ next _
    refine ⟨cs ++ ds, .append hcs hds, ?_⟩
    rw [layoutOnto]
    exact hb.trans (by rw [ha, List.append_assoc])
  | nest more d ih =>
    intro indent flat column next done
    obtain ⟨cs, hcs, h⟩ := ih (indent + more) flat column next done
    exact ⟨cs, .nest more hcs, h⟩
  | group d ih =>
    intro indent flat column next done
    obtain ⟨cs, hcs, h⟩ := ih indent (flat || d.fits width true column next) column next done
    exact ⟨cs, .group hcs, h⟩

/-- A layout for any width is a rendering. -/
theorem renders_layout (width : Nat) (d : Document α) :
    d.Renders (Piece.renderAll (fun _ s => s) (d.layout width)).toList := by
  obtain ⟨cs, hcs, h⟩ := renders_layoutOnto width d 0 false 0 (fun _ => true) []
  rw [Piece.toList_renderAll, layout, h]
  exact hcs

/-! Documents that take the same room -/

theorem columns_append (s t : String) :
    Layout.columns (s ++ t) = Layout.columns s + Layout.columns t := by
  have h : ∀ (cs : List Char) (n : Nat),
      cs.foldl (fun acc c => acc + Layout.columnsOf c) n
        = n + cs.foldl (fun acc c => acc + Layout.columnsOf c) 0 := by
    intro cs
    induction cs with
    | nil => intro n; rfl
    | cons c cs ih =>
      intro n
      rw [List.foldl_cons, List.foldl_cons, ih, ih (0 + _)]
      omega
  simp only [Layout.columns, String.foldl_eq_foldl_toList, String.toList_append, List.foldl_append]
  rw [h]

/-- The documents fit where the other does, and are laid out with the same characters. -/
structure SameRoom (d d' : Document α) : Prop where
  fits_eq : ∀ width flat column next,
    d.fits width flat column next = d'.fits width flat column next
  plain_eq : ∀ width indent flat column next (done done' : List (Piece α)),
    plain done.reverse = plain done'.reverse →
    plain (d.layoutOnto width indent flat column next done).1.reverse
      = plain (d'.layoutOnto width indent flat column next done').1.reverse
  column_eq : ∀ width indent flat column next (done done' : List (Piece α)),
    (d.layoutOnto width indent flat column next done).2
      = (d'.layoutOnto width indent flat column next done').2

namespace SameRoom

theorem text (mark mark' : α) (s : String) : SameRoom (.text mark s) (.text mark' s) where
  fits_eq _ _ _ _ := rfl
  plain_eq _ _ _ _ _ _ _ h := by simp [layoutOnto, Piece.render, h]
  column_eq _ _ _ _ _ _ _ := rfl

theorem line : SameRoom (.line : Document α) .line where
  fits_eq _ _ _ _ := rfl
  plain_eq _ _ flat _ _ _ _ h := by cases flat <;> simp [layoutOnto, Piece.render, h]
  column_eq _ _ flat _ _ _ _ := by cases flat <;> rfl

theorem append {a a' b b' : Document α} (ha : SameRoom a a') (hb : SameRoom b b') :
    SameRoom (.append a b) (.append a' b') where
  fits_eq width flat column next := by
    simp only [fits, ha.fits_eq, hb.fits_eq]
  plain_eq width indent flat column next done done' h := by
    simp only [layoutOnto, hb.fits_eq]
    rw [ha.column_eq width indent flat column _ done done']
    exact hb.plain_eq _ _ _ _ _ _ _ (ha.plain_eq _ _ _ _ _ _ _ h)
  column_eq width indent flat column next done done' := by
    simp only [layoutOnto, hb.fits_eq]
    rw [ha.column_eq width indent flat column _ done done']
    exact hb.column_eq _ _ _ _ _ _ _

theorem nest {d d' : Document α} (more : Nat) (h : SameRoom d d') :
    SameRoom (.nest more d) (.nest more d') where
  fits_eq width flat column next := h.fits_eq width flat column next
  plain_eq width indent flat column next := h.plain_eq width (indent + more) flat column next
  column_eq width indent flat column next := h.column_eq width (indent + more) flat column next

theorem group {d d' : Document α} (h : SameRoom d d') : SameRoom (.group d) (.group d') where
  fits_eq width flat column next := h.fits_eq width flat column next
  plain_eq width indent flat column next done done' hdone := by
    simp only [layoutOnto, h.fits_eq]
    exact h.plain_eq _ _ _ _ _ _ _ hdone
  column_eq width indent flat column next done done' := by
    simp only [layoutOnto, h.fits_eq]
    exact h.column_eq _ _ _ _ _ _ _

theorem split (mark first second : α) (s t : String) :
    SameRoom (.text mark (s ++ t)) (.append (.text first s) (.text second t)) where
  fits_eq width flat column next := by
    simp only [fits, columns_append]
    by_cases hs : width < column + Layout.columns s
    · rw [if_pos hs, if_pos (by omega)]
    · rw [if_neg hs, Nat.add_assoc]
  plain_eq width indent flat column next done done' h := by
    simp only [layoutOnto, List.reverse_cons, Piece.plain_append, Piece.plain_singleton, Piece.render,
      h, String.toList_append, List.append_assoc]
  column_eq width indent flat column next done done' := by
    simp only [layoutOnto, columns_append, Nat.add_assoc]

theorem symm {d d' : Document α} (h : SameRoom d d') : SameRoom d' d where
  fits_eq width flat column next := (h.fits_eq width flat column next).symm
  plain_eq width indent flat column next done done' hdone :=
    (h.plain_eq width indent flat column next done' done hdone.symm).symm
  column_eq width indent flat column next done done' :=
    (h.column_eq width indent flat column next done' done).symm

theorem renderAll_eq {d d' : Document α} (h : SameRoom d d') (width : Nat) :
    Piece.renderAll (fun _ s => s) (d.layout width) =
      Piece.renderAll (fun _ s => s) (d'.layout width) := by
  apply String.toList_inj.1
  rw [Piece.toList_renderAll, Piece.toList_renderAll]
  exact h.plain_eq width 0 false 0 _ [] [] rfl

end SameRoom

theorem Alike.sameRoom {d d' : Document α} (h : Alike d d') : SameRoom d d' := by
  induction h with
  | text mark mark' s => exact .text mark mark' s
  | line => exact .line
  | append _ _ iha ihb => exact iha.append ihb
  | nest more _ ih => exact ih.nest more
  | group _ ih => exact ih.group
  | split mark first second _ _ => exact .split mark first second _ _
  | symm _ ih => exact ih.symm

theorem renderer_lawful : (renderer : Renderer α).Lawful where
  renders := renders_layout
  alike width _ _ h := h.sameRoom.renderAll_eq width

@[refl] theorem Alike.refl (d : Document α) : Alike d d := by
  induction d with
  | text mark s => exact .text mark mark s
  | line => exact .line
  | append a b iha ihb => exact iha.append ihb
  | nest more d ih => exact ih.nest more
  | group d ih => exact ih.group

/-! Characters that are no blanks -/

def occurrences (c : Char) : Document α → Nat
  | .text _ s => s.toList.count c
  | .line => 0
  | .append a b => a.occurrences c + b.occurrences c
  | .nest _ d | .group d => d.occurrences c

@[simp] theorem occurrences_append (c : Char) (a b : Document α) :
    (a ++ b).occurrences c = a.occurrences c + b.occurrences c := rfl

theorem Renders.count {d : Document α} {cs : List Char} (h : d.Renders cs) {c : Char}
    (hspace : c ≠ ' ') (hnewline : c ≠ '\n') : cs.count c = d.occurrences c := by
  induction h with
  | text mark s => rfl
  | space => simp [occurrences, hspace.symm]
  | newline indent =>
    simp [occurrences, List.count_replicate, hspace.symm, hnewline.symm]
  | append _ _ iha ihb => rw [List.count_append, iha, ihb, occurrences]
  | nest _ _ ih => exact ih
  | group _ ih => exact ih

end Document

end PrefixCalculus
