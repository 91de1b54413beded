set_option autoImplicit false

/-!
Styles of printed text and their terminal codes. A styled piece starts from the plain style, sets what
it needs and returns to the plain style.
-/

namespace PrefixCalculus

inductive Style
  | plain
  | punctuation
  /-- A parenthesis; both of a pair have the depth of their nesting. -/
  | paren (depth : UInt8)
  | keyword
  | operator
  | ident
  | function
  | number
  deriving DecidableEq, Repr

namespace Style

inductive Color
  | black | red | green | yellow | blue | magenta | cyan | white
  deriving DecidableEq, Repr

def Color.code : Color → Nat
  | black => 0 | red => 1 | green => 2 | yellow => 3
  | blue => 4 | magenta => 5 | cyan => 6 | white => 7

structure Look where
  bold : Bool
  dimmed : Bool
  color : Option Color
  deriving DecidableEq, Repr

/-- Six colors take turns with the depth. -/
def parenColor (depth : UInt8) : Color :=
  match depth.toNat % 6 with
  | 0 => .blue
  | 1 => .green
  | 2 => .white
  | 3 => .yellow
  | 4 => .red
  | _ => .magenta

def look? : Style → Option Look
  | plain => none
  | punctuation => some ⟨false, true, none⟩
  | paren depth => some ⟨false, true, some (parenColor depth)⟩
  | keyword => some ⟨true, false, some .cyan⟩
  | operator => some ⟨true, false, some .yellow⟩
  | ident => some ⟨true, false, some .green⟩
  | function => some ⟨false, false, some .magenta⟩
  | number => some ⟨false, false, some .blue⟩

def escape (code : String) : String :=
  "\x1b[" ++ code ++ "m"

def Look.codes (l : Look) : String :=
  (if l.bold then escape "1" else "") ++ (if l.dimmed then escape "2" else "")
    ++ (match l.color with
      | some c => escape ("3" ++ toString c.code)
      | none => "")

def colored (style : Style) (s : String) : String :=
  match style.look? with
  | none => s
  | some look => escape "0" ++ look.codes ++ s ++ escape "0"

end Style

end PrefixCalculus
