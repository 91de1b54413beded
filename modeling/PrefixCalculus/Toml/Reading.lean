import PrefixCalculus.Toml.Format
import PrefixCalculus.Toml.Scalar
import PrefixCalculus.Toml.Statement
set_option autoImplicit false

/-!
A TOML document as text. A statement fills a line; inside brackets and braces the lines do not
matter. A text is a document only as a whole. Each reader takes the text and gives what it found and
the text after it; `left` bounds the number of steps, and the length of the text is enough.
-/

namespace PrefixCalculus

namespace Toml

def skipComment? (cs : List Char) : Option (List Char) :=
  let rest := cs.dropWhile isPlain
  if rest.isEmpty || (newline? rest).isSome then some rest else none

def skipFiller? : Nat → List Char → Option (List Char)
  | 0, cs => some cs
  | left + 1, cs =>
    match skipSpaces cs with
    | '#' :: cs => (skipComment? cs).bind (skipFiller? left)
    | cs =>
      match newline? cs with
      | some cs => skipFiller? left cs
      | none => some cs

def endLine? (cs : List Char) : Option (List Char) := do
  let cs ←
    match skipSpaces cs with
    | '#' :: cs => skipComment? cs
    | cs => some cs
  if cs.isEmpty then some [] else newline? cs

def takeName? (cs : List Char) : Option (String × List Char) :=
  match cs with
  | '"' :: cs => (quoted (cs.length + 1) cs).map fun (s, cs) => (String.ofList s, cs)
  | '\'' :: cs => (literal cs).map fun (s, cs) => (String.ofList s, cs)
  | cs =>
    let (s, cs) := cs.span isBare
    if s.isEmpty then none else some (String.ofList s, cs)

def takeKey? : Nat → List Char → Option (Key × List Char)
  | 0, _ => none
  | left + 1, cs => do
    let (name, cs) ← takeName? cs
    match skipSpaces cs with
    | '.' :: cs =>
      let (key, cs) ← takeKey? left (skipSpaces cs)
      return (⟨name :: key.path, key.name⟩, cs)
    | cs => return (⟨[], name⟩, cs)

/-- The items of an array, from behind the opening bracket or a comma. -/
def takeItems? (item : List Char → Option (Value × List Char)) :
    Nat → List Char → Option (List Value × List Char)
  | 0, _ => none
  | left + 1, cs => do
    match ← skipFiller? left cs with
    | ']' :: cs => return ([], cs)
    | cs =>
      let (v, cs) ← item cs
      match ← skipFiller? left cs with
      | ',' :: cs =>
        let (vs, cs) ← takeItems? item left cs
        return (v :: vs, cs)
      | ']' :: cs => return ([v], cs)
      | _ => none

def takeAssignment? (value : List Char → Option (Value × List Char)) (cs : List Char) :
    Option ((Key × Value) × List Char) := do
  let (key, cs) ← takeKey? (cs.length + 1) cs
  match cs with
  | '=' :: cs =>
    let (v, cs) ← value (skipSpaces cs)
    return ((key, v), cs)
  | _ => none

def takeEntries? (value : List Char → Option (Value × List Char)) :
    Nat → Entries → List Char → Option (Entries × List Char)
  | 0, _, _ => none
  | left + 1, found, cs => do
    match ← skipFiller? left cs with
    | '\x7d' :: cs => return (found, cs)
    | cs =>
      let ((key, v), cs) ← takeAssignment? value cs
      let found ← assign key v found
      match ← skipFiller? left cs with
      | ',' :: cs => takeEntries? value left found cs
      | '\x7d' :: cs => return (found, cs)
      | _ => none

/-- The value at the front, with so many brackets and braces at most inside one another. -/
def takeValue? : Nat → List Char → Option (Value × List Char)
  | 0, cs => scalar? cs
  | depth + 1, cs =>
    match cs with
    | '[' :: cs => (takeItems? (takeValue? depth) (cs.length + 1) cs).map fun (vs, cs) => (.array vs, cs)
    | '\x7b' :: cs =>
      (takeEntries? (takeValue? depth) (cs.length + 1) [] cs).map fun (es, cs) => (.table .inline es, cs)
    | cs => scalar? cs

def nesting : Nat := 80

def takeStatement? (cs : List Char) : Option (Option Statement × List Char) :=
  match skipSpaces cs with
  | '[' :: '[' :: cs => do
    let (key, cs) ← takeKey? (cs.length + 1) (skipSpaces cs)
    match cs with
    | ']' :: ']' :: cs => return (some (.element key), cs)
    | _ => none
  | '[' :: cs => do
    let (key, cs) ← takeKey? (cs.length + 1) (skipSpaces cs)
    match cs with
    | ']' :: cs => return (some (.table key), cs)
    | _ => none
  | cs =>
    if (endLine? cs).isSome then some (none, cs)
    else (takeAssignment? (takeValue? nesting) cs).map fun ((key, v), cs) => (some (.assign key v), cs)

def takeStatements? : Nat → List Char → Option (List Statement)
  | 0, _ => none
  | _ + 1, [] => some []
  | left + 1, cs => do
    let (statement?, cs) ← takeStatement? cs
    let statements ← takeStatements? left (← endLine? cs)
    return statement?.toList ++ statements

def skipMark : List Char → List Char
  | '\uFEFF' :: cs => cs
  | cs => cs

/-- The table that a text holds, if the text is a document. -/
def Entries.ofText? (text : String) : Option Entries := do
  let cs := skipMark text.toList
  Entries.ofStatements? (← takeStatements? (cs.length + 1) cs)

/-! The format -/

def Section.text (s : Section) : String :=
  "[" ++ s.name ++ "]\n" ++ String.join (s.fields.map fun (key, x) => key ++ " = " ++ x.text ++ "\n")

def write? (doc : List Section) : Option String :=
  if doc.all fun s => s.fields.all fun f => f.2.fits then
    some ("\n".intercalate (doc.map Section.text))
  else none

def fillFrom {α : Type} (v : Value) (a : α) (field : RecordField Value α × Nat) : Option α :=
  match v.field? field.1.name field.2 with
  | none => some a
  | some w => field.1.read w a

/-- The fields of a record one after the other; what has other names is passed over. -/
def record? {α : Type} (default : α) (fields : List (RecordField Value α)) (v : Value) : Option α :=
  if v.isRecord (fields.map RecordField.name) then fields.zipIdx.foldlM (fillFrom v) default else none

def format : Format where
  Value := Value
  write? := write?
  parse? text := (Entries.ofText? text).map (.table .header)
  entries?
    | .table _ entries => some entries
    | _ => none
  float? := Value.toFloat?
  whole? bound v := v.toNat? bound
  record? := record?

end Toml

end PrefixCalculus
