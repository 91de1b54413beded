import PrefixCalculus.Layout.Document
set_option autoImplicit false

/-!
What is relied on in a renderer: a text is written as it is, a break is a space or the start of an
indented line, and the marks of texts and the places where a text is cut in two make no difference.
-/

namespace PrefixCalculus

abbrev Renderer (α : Type) := Nat → Document α → String

namespace Document

variable {α : Type}

/-- Characters that the document may be laid out as. -/
inductive Renders : Document α → List Char → Prop
  | text (mark : α) (s : String) : Renders (.text mark s) s.toList
  | space : Renders .line [' ']
  | newline (indent : Nat) : Renders .line ('\n' :: List.replicate indent ' ')
  | append {a b : Document α} {cs ds : List Char} (ha : Renders a cs) (hb : Renders b ds) :
      Renders (.append a b) (cs ++ ds)
  | nest {d : Document α} {cs : List Char} (more : Nat) (h : Renders d cs) : Renders (.nest more d) cs
  | group {d : Document α} {cs : List Char} (h : Renders d cs) : Renders (.group d) cs

/-- Printable characters that take a column each, wherever they stand. -/
def isNarrow (s : String) : Bool :=
  s.toList.all fun c => ' ' ≤ c && c ≤ '~'

/-- Documents with the same characters between the same breaks. -/
inductive Alike : Document α → Document α → Prop
  | text (mark mark' : α) (s : String) : Alike (.text mark s) (.text mark' s)
  | line : Alike .line .line
  | append {a a' b b' : Document α} (ha : Alike a a') (hb : Alike b b') :
      Alike (.append a b) (.append a' b')
  | nest {d d' : Document α} (more : Nat) (h : Alike d d') : Alike (.nest more d) (.nest more d')
  | group {d d' : Document α} (h : Alike d d') : Alike (.group d) (.group d')
  | split (mark first second : α) {s t : String} (hs : isNarrow s = true) (ht : isNarrow t = true) :
      Alike (.text mark (s ++ t)) (.append (.text first s) (.text second t))
  | symm {d d' : Document α} (h : Alike d d') : Alike d' d

def renderer : Renderer α := fun width d =>
  Piece.renderAll (fun _ s => s) (d.layout width)

end Document

structure Renderer.Lawful {α : Type} (R : Renderer α) : Prop where
  renders : ∀ (width : Nat) (d : Document α), d.Renders (R width d).toList
  alike : ∀ (width : Nat) {d d' : Document α}, d.Alike d' → R width d = R width d'

end PrefixCalculus
