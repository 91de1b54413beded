set_option autoImplicit false

/-!
Documents that are laid out for a width. A break is a space or the start of a new line; the breaks of
a group are all spaces if the group fits, together with what follows it up to the next break.
-/

namespace PrefixCalculus

namespace Layout

def columnsOf (c : Char) : Nat :=
  let n := c.toNat
  if n < 0x300 then 1
  else if n < 0x370 || (0x200B ≤ n && n ≤ 0x200F) || n == 0xFEFF then 0
  else if (0x1100 ≤ n && n ≤ 0x115F) || (0x2E80 ≤ n && n ≤ 0xA4CF && n != 0x303F)
      || (0xAC00 ≤ n && n ≤ 0xD7A3) || (0xF900 ≤ n && n ≤ 0xFAFF) || (0xFE30 ≤ n && n ≤ 0xFE6F)
      || (0xFF00 ≤ n && n ≤ 0xFF60) || (0xFFE0 ≤ n && n ≤ 0xFFE6)
      || (0x1F300 ≤ n && n ≤ 0x1F64F) || (0x1F900 ≤ n && n ≤ 0x1F9FF)
      || (0x20000 ≤ n && n ≤ 0x3FFFD) then 2
  else 1

def columns (s : String) : Nat :=
  s.foldl (fun acc c => acc + columnsOf c) 0

end Layout

/-- A text with marks of type `α`, and the places where it may be broken. -/
inductive Document (α : Type)
  | text (mark : α) (s : String)
  | line
  | append (first second : Document α)
  /-- Lines that start inside are indented further. -/
  | nest (indent : Nat) (inner : Document α)
  | group (inner : Document α)

inductive Piece (α : Type)
  | text (mark : α) (s : String)
  | space
  | newline (indent : Nat)
  deriving DecidableEq, Repr

namespace Document

variable {α : Type}

instance : Append (Document α) := ⟨append⟩

def intersperse (separator : Document α) : Document α → List (Document α) → Document α
  | first, [] => first
  | first, next :: rest => first ++ (separator ++ intersperse separator next rest)

/-- From a column, does the document fit up to its first break that may start a line? A document
without one fits if what follows does. -/
def fits (width : Nat) : Document α → Bool → Nat → (Nat → Bool) → Bool
  | text _ s, _, column, next =>
    let column := column + Layout.columns s
    if width < column then false else next column
  | line, true, column, next => if width < column + 1 then false else next (column + 1)
  | line, false, _, _ => true
  | append a b, flat, column, next =>
    a.fits width flat column fun column => b.fits width flat column next
  | nest _ d, flat, column, next => d.fits width flat column next
  | group d, flat, column, next => d.fits width flat column next

/-- A layout onto the pieces so far, in reverse, and the column after it. `next` tells from a column
whether what follows fits up to its first break. -/
def layoutOnto (width : Nat) :
    Document α → Nat → Bool → Nat → (Nat → Bool) → List (Piece α) → List (Piece α) × Nat
  | text mark s, _, _, column, _, done => (.text mark s :: done, column + Layout.columns s)
  | line, _, true, column, _, done => (.space :: done, column + 1)
  | line, indent, false, _, _, done => (.newline indent :: done, indent)
  | append a b, indent, flat, column, next, done =>
    let (done, column) :=
      a.layoutOnto width indent flat column (fun column => b.fits width false column next) done
    b.layoutOnto width indent flat column next done
  | nest more d, indent, flat, column, next, done =>
    d.layoutOnto width (indent + more) flat column next done
  | group d, indent, flat, column, next, done =>
    d.layoutOnto width indent (flat || d.fits width true column next) column next done

def layout (width : Nat) (d : Document α) : List (Piece α) :=
  (d.layoutOnto width 0 false 0 (fun _ => true) []).1.reverse

end Document

namespace Piece

variable {α : Type}

def render (f : α → String → String) : Piece α → String
  | text mark s => f mark s
  | space => " "
  | newline indent => "\n" ++ String.ofList (List.replicate indent ' ')

def renderAll (f : α → String → String) (pieces : List (Piece α)) : String :=
  pieces.foldl (fun acc p => acc ++ p.render f) ""

end Piece

end PrefixCalculus
