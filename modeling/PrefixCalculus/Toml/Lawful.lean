import Mathlib.Data.List.Forall2
import PrefixCalculus.Toml.Format
set_option autoImplicit false

/-!
What is relied on in a format. `Format.Lawful` says which lines a document is written in, what the words
of lines say, and that a record keeps its default where a table has no field for it.
-/

namespace PrefixCalculus

namespace Decimal

/-- Digits, with a zero in front only where nothing follows. -/
structure IsWhole (ds : List Char) : Prop where
  isDigit : ∀ c ∈ ds, isDigit c = true
  lead : ds = ['0'] ∨ ∃ c cs, ds = c :: cs ∧ c ≠ '0'

end Decimal

/-- The text is digits, a point and digits, and the double is the one next to what they say. -/
inductive IsPointed (x : Float) : List Char → Prop
  | intro {whole fraction : List Char} (hwhole : Decimal.IsWhole whole) (hne : fraction ≠ [])
      (hfraction : ∀ c ∈ fraction, Decimal.isDigit c = true)
      (hx : Decimal.toFloat whole fraction 0 = x) : IsPointed x (whole ++ '.' :: fraction)

namespace Toml

inductive Writes : List Char → Scalar → Prop
  | integer (n : Nat) : Writes (Decimal.digits n) (.integer n)
  | float (x : Float) : Writes (floatText x).toList (.float x)
  | negNan : Writes ['-', 'n', 'a', 'n'] (.float nan)

inductive Says : List Char → Scalar → Prop
  | integer {n : Nat} (hn : (Scalar.integer n).fits = true) : Says (Decimal.digits n) (.integer n)
  | nan : Says ['n', 'a', 'n'] (.float nan)
  | negNan : Says ['-', 'n', 'a', 'n'] (.float PrefixCalculus.nan)
  | infinity : Says ['i', 'n', 'f'] (.float infinity)
  | negInfinity : Says ['-', 'i', 'n', 'f'] (.float (-PrefixCalculus.infinity))
  | pointed {x : Float} {cs : List Char} (hx : IsPointed x cs) (hinf : x.isInf = false) :
      Says cs (.float x)
  | negative {x : Float} {cs : List Char} (hx : IsPointed x cs) (hinf : x.isInf = false) :
      Says ('-' :: cs) (.float (-x))

/-! Lines -/

structure IsName (name : String) : Prop where
  ne_nil : name.toList ≠ []
  isBare : ∀ c ∈ name.toList, isBare c = true

inductive Item
  | header (name : String)
  | field (key : String) (value : Scalar)

/-- The line is the item, with a word for its value that is related to the value. -/
inductive IsLine (relates : List Char → Scalar → Prop) : String → Item → Prop
  | header (name : String) : IsLine relates ("[" ++ name ++ "]") (.header name)
  | field {key word : String} {x : Scalar} (hword : relates word.toList x) :
      IsLine relates (key ++ " = " ++ word) (.field key x)

def Section.items (s : Section) : List Item :=
  .header s.name :: s.fields.map fun (key, x) => .field key x

/-- Names are bare, and none comes twice in one place. -/
structure IsPlain (doc : List Section) : Prop where
  isName : ∀ s ∈ doc, IsName s.name
  names : (doc.map Section.name).Nodup
  isKey : ∀ s ∈ doc, ∀ f ∈ s.fields, IsName f.1
  keys : ∀ s ∈ doc, (s.fields.map Prod.fst).Nodup

def linesText (lines : List String) : String :=
  String.join (lines.map (· ++ "\n"))

def filled (lines : List String) : List String :=
  lines.filter fun line => !line.isEmpty

/-! Laws -/

def RecordField.fill {V α : Type} (entries : List (String × V)) (a : α) (field : RecordField V α) :
    Option α :=
  match entries.lookup field.name with
  | none => some a
  | some v => field.read v a

namespace Format

variable (F : Format)

def IsScalar (v : F.Value) : Scalar → Prop
  | .float x => F.float? v = some x
  | .integer n => ∀ bound, n < bound → F.whole? bound v = some n

def IsTable (v : F.Value) (fields : List (String × Scalar)) : Prop :=
  ∃ entries, F.entries? v = some entries ∧
    List.Forall₂ (fun e f => e.1 = f.1 ∧ F.IsScalar e.2 f.2) entries fields

def IsDocument (v : F.Value) (doc : List Section) : Prop :=
  ∃ entries, F.entries? v = some entries ∧
    List.Forall₂ (fun e s => e.1 = s.name ∧ F.IsTable e.2 s.fields) entries doc

structure Lawful : Prop where
  /-- A document is written item by item, with blank lines anywhere. -/
  written : ∀ doc : List Section, (∀ s ∈ doc, ∀ f ∈ s.fields, f.2.fits = true) →
    ∃ lines, F.write? doc = some (linesText lines) ∧
      List.Forall₂ (IsLine Writes) (filled lines) (doc.flatMap Section.items)
  /-- The items of a document are read as its tables, whatever lines are blank. -/
  parsed : ∀ (lines : List String) (doc : List Section), IsPlain doc →
    List.Forall₂ (IsLine Says) (filled lines) (doc.flatMap Section.items) →
    ∃ v, F.parse? (linesText lines) = some v ∧ F.IsDocument v doc
  /-- A record is its default with the fields that the table has. -/
  defaulted : ∀ {α : Type} (default : α) (fields : List (RecordField F.Value α)) {v : F.Value}
    {entries : List (String × F.Value)}, F.entries? v = some entries →
    (entries.map Prod.fst).Nodup →
    (∀ key ∈ entries.map Prod.fst, key ∈ fields.map RecordField.name) →
    F.record? default fields v = fields.foldlM (RecordField.fill entries) default

end Format

/-! Lines left out -/

/-- The key that a line sets, if it sets one without quotes and points. -/
def lineKey? (line : List Char) : Option String :=
  match line.span isBare with
  | (key, ' ' :: '=' :: _) => some (String.ofList key)
  | _ => none

def withoutKeys (keys : List String) (text : String) : String :=
  let kept := (text.toList.splitOn '\n').filter fun line => !(lineKey? line).any keys.contains
  String.ofList (['\n'].intercalate kept)

end Toml

end PrefixCalculus
