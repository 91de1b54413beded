import PrefixCalculus.Decimal.Reading
import PrefixCalculus.Toml.Quoted
import PrefixCalculus.Toml.Value
set_option autoImplicit false

/-!
Values written as one word: integers, decimals, truth values, dates and times. Single underscores may
stand between digits, and a whole part has no zero in front.
-/

namespace PrefixCalculus

namespace Toml

def ungroup? (isDigit : Char → Bool) : List Char → Option (List Char)
  | [] => none
  | c :: cs =>
    if isDigit c then
      match cs with
      | [] => some [c]
      | '_' :: cs => (ungroup? isDigit cs).map (c :: ·)
      | cs => (ungroup? isDigit cs).map (c :: ·)
    else none

theorem ungroup?_of_all (isDigit : Char → Bool) (h_ : isDigit '_' = false) :
    ∀ cs : List Char, cs ≠ [] → cs.all isDigit = true → ungroup? isDigit cs = some cs
  | [], hne, _ => absurd rfl hne
  | [c], _, h => by simp_all [ungroup?]
  | c :: d :: cs, _, h => by
    have hc : isDigit c = true := by simp_all
    have hd : d ≠ '_' := by rintro rfl; simp_all
    have ih := ungroup?_of_all isDigit h_ (d :: cs) (by simp) (by simp_all)
    unfold ungroup?
    simp only [hc, if_true]
    split
    · simp at *
    · simp_all
    · simp_all

/-- The digits of a whole part: one of them, or some that do not start with a zero. -/
def whole? (cs : List Char) : Option (List Char) := do
  let ds ← ungroup? Decimal.isDigit cs
  match ds with
  | '0' :: _ :: _ => none
  | _ => some ds

def inBase? (base : Nat) (cs : List Char) : Option Nat := do
  let isDigit (c : Char) : Bool := (hexDigit? c).any fun d => d < base
  let ds ← (← ungroup? isDigit cs).mapM hexDigit?
  return ds.foldl (fun acc d => base * acc + d) 0

def integer? : List Char → Option Int
  | '0' :: 'x' :: cs => (inBase? 16 cs).map Int.ofNat
  | '0' :: 'o' :: cs => (inBase? 8 cs).map Int.ofNat
  | '0' :: 'b' :: cs => (inBase? 2 cs).map Int.ofNat
  | cs =>
    let (negative, cs) := Decimal.takeSign cs
    (whole? cs).map fun ds =>
      let n := Int.ofNat (Decimal.ofDigits ds)
      if negative then -n else n

def spanGrouped (cs : List Char) : List Char × List Char :=
  cs.span fun c => Decimal.isDigit c || c == '_'

def exponent? : List Char → Option Int
  | [] => some 0
  | c :: cs =>
    if c == 'e' || c == 'E' then
      let (negative, cs) := Decimal.takeSign cs
      (ungroup? Decimal.isDigit cs).map fun ds =>
        let n := Int.ofNat (Decimal.ofDigits ds)
        if negative then -n else n
    else none

def unsigned? (cs : List Char) : Option Value := do
  let (whole, cs) := spanGrouped cs
  let whole ← whole? whole
  match cs with
  | '.' :: cs =>
    let (fraction, cs) := spanGrouped cs
    let fraction ← ungroup? Decimal.isDigit fraction
    return .ofDecimal (Decimal.toFloat whole fraction (← exponent? cs))
  | cs => return .ofDecimal (Decimal.toFloat whole [] (← exponent? cs))

def Value.negate : Value → Value
  | .float x => .float (-x)
  | v => v

def decimal? (cs : List Char) : Option Value :=
  let (negative, cs) := Decimal.takeSign cs
  let size? :=
    if cs = ['i', 'n', 'f'] then some (.float infinity)
    else if cs = ['n', 'a', 'n'] then some (.float nan)
    else unsigned? cs
  size?.map fun v => if negative then v.negate else v

/-! Dates and times -/

def takeDigits? (count : Nat) (cs : List Char) : Option (Nat × List Char) :=
  let ds := cs.take count
  if ds.length = count && ds.all Decimal.isDigit then some (Decimal.ofDigits ds, cs.drop count)
  else none

def expect? (c : Char) : List Char → Option (List Char)
  | d :: cs => if d = c then some cs else none
  | [] => none

def daysIn (year month : Nat) : Nat :=
  if month = 2 then
    if year % 4 = 0 ∧ (year % 100 ≠ 0 ∨ year % 400 = 0) then 29 else 28
  else if month = 4 ∨ month = 6 ∨ month = 9 ∨ month = 11 then 30
  else 31

def skipDate? (cs : List Char) : Option (List Char) := do
  let (year, cs) ← takeDigits? 4 cs
  let (month, cs) ← takeDigits? 2 (← expect? '-' cs)
  let (day, cs) ← takeDigits? 2 (← expect? '-' cs)
  if 1 ≤ month ∧ month ≤ 12 ∧ 1 ≤ day ∧ day ≤ daysIn year month then some cs else none

def skipMinutes? (cs : List Char) : Option (List Char) := do
  let (hour, cs) ← takeDigits? 2 cs
  let (minute, cs) ← takeDigits? 2 (← expect? ':' cs)
  if hour < 24 ∧ minute < 60 then some cs else none

/-- What follows a time of day; the seconds may be left out, and there may be a leap second. -/
def skipTime? (cs : List Char) : Option (List Char) := do
  let cs ← skipMinutes? cs
  match cs with
  | ':' :: cs =>
    let (second, cs) ← takeDigits? 2 cs
    if 60 < second then none
    else
      match cs with
      | '.' :: cs =>
        let (ds, cs) := Decimal.spanDigits cs
        if ds.isEmpty then none else some cs
      | cs => some cs
  | cs => some cs

/-- Is this nothing, or the distance from universal time? -/
def isOffset : List Char → Bool
  | [] => true
  | ['Z'] | ['z'] => true
  | '+' :: cs | '-' :: cs => (skipMinutes? cs).any List.isEmpty
  | _ => false

def isMoment (cs : List Char) : Bool :=
  match skipDate? cs with
  | none => (skipTime? cs).any List.isEmpty
  | some [] => true
  | some (c :: cs) => (c == 'T' || c == 't' || c == ' ') && (skipTime? cs).any isOffset

def isStop (c : Char) : Bool :=
  isSpace c || ['\n', '\r', '#', ',', ']', '\x7d'].contains c

/-- The word at the front; a date goes on over one blank if a digit follows. -/
def takeWord (cs : List Char) : List Char × List Char :=
  let (word, rest) := cs.span fun c => !isStop c
  match rest with
  | ' ' :: d :: rest =>
    if Decimal.isDigit d && skipDate? word == some [] then
      let (time, rest) := (d :: rest).span fun c => !isStop c
      (word ++ ' ' :: time, rest)
    else (word, ' ' :: d :: rest)
  | rest => (word, rest)

def ofWord? (word : List Char) : Option Value :=
  if word = ['t', 'r', 'u', 'e'] then some (.boolean true)
  else if word = ['f', 'a', 'l', 's', 'e'] then some (.boolean false)
  else if isMoment word then some .moment
  else
    match integer? word with
    | some n => some (.ofInteger n)
    | none => decimal? word

def scalar? (cs : List Char) : Option (Value × List Char) :=
  match cs with
  | '"' :: _ | '\'' :: _ => (text? cs).map fun (s, cs) => (.text (String.ofList s), cs)
  | _ =>
    let (word, cs) := takeWord cs
    (ofWord? word).map fun v => (v, cs)

end Toml

end PrefixCalculus
