set_option autoImplicit false

/-!
Text between quotes, on one line or on several. Between double quotes a backslash begins an escape;
between single quotes every character stands for itself. Each reader starts behind the opening quotes
and gives the text and what follows the closing ones; `left` bounds the number of characters, and the
length of what is read is enough.
-/

namespace PrefixCalculus

namespace Toml

/-- A character that may stand for itself: no control character but the tab. -/
def isPlain (c : Char) : Bool :=
  c == '\t' || (' ' ≤ c && c != '\x7f')

def isSpace (c : Char) : Bool :=
  c == ' ' || c == '\t'

def skipSpaces (cs : List Char) : List Char :=
  cs.dropWhile isSpace

def newline? : List Char → Option (List Char)
  | '\n' :: cs => some cs
  | '\r' :: '\n' :: cs => some cs
  | _ => none

def skipLines : Nat → List Char → List Char
  | 0, cs => cs
  | left + 1, cs =>
    match newline? (skipSpaces cs) with
    | some cs => skipLines left cs
    | none => skipSpaces cs

def hexDigit? (c : Char) : Option Nat :=
  if '0' ≤ c && c ≤ '9' then some (c.toNat - '0'.toNat)
  else if 'a' ≤ c && c ≤ 'f' then some (c.toNat - 'a'.toNat + 10)
  else if 'A' ≤ c && c ≤ 'F' then some (c.toNat - 'A'.toNat + 10)
  else none

def codePoint? (count : Nat) (cs : List Char) : Option (Char × List Char) := do
  let ds ← (cs.take count).mapM hexDigit?
  let n := ds.foldl (fun acc d => 16 * acc + d) 0
  if ds.length = count ∧ n.isValidChar then some (Char.ofNat n, cs.drop count) else none

def escape? : List Char → Option (Char × List Char)
  | 'b' :: cs => some ('\x08', cs)
  | 't' :: cs => some ('\t', cs)
  | 'n' :: cs => some ('\n', cs)
  | 'f' :: cs => some ('\x0c', cs)
  | 'r' :: cs => some ('\r', cs)
  | 'e' :: cs => some ('\x1b', cs)
  | '"' :: cs => some ('"', cs)
  | '\\' :: cs => some ('\\', cs)
  | 'x' :: cs => codePoint? 2 cs
  | 'u' :: cs => codePoint? 4 cs
  | 'U' :: cs => codePoint? 8 cs
  | _ => none

def quoted : Nat → List Char → Option (List Char × List Char)
  | 0, _ => none
  | left + 1, cs =>
    match cs with
    | [] => none
    | '"' :: cs => some ([], cs)
    | '\\' :: cs => do
      let (c, cs) ← escape? cs
      let (s, cs) ← quoted left cs
      return (c :: s, cs)
    | c :: cs =>
      if isPlain c then do
        let (s, cs) ← quoted left cs
        return (c :: s, cs)
      else none

def literal (cs : List Char) : Option (List Char × List Char) :=
  match cs.span fun c => isPlain c && c != '\'' with
  | (s, '\'' :: cs) => some (s, cs)
  | _ => none

/-- Three quotes, and up to two more before them that still belong to the text. -/
def closing? (quote : Char) (cs : List Char) : Option (List Char × List Char) :=
  let count := (cs.takeWhile (· == quote)).length
  if count < 3 then none
  else
    let kept := min (count - 3) 2
    some (List.replicate kept quote, cs.drop (kept + 3))

/-- Text between three double quotes; a backslash before an end of line joins the lines. -/
def quotedLines : Nat → List Char → Option (List Char × List Char)
  | 0, _ => none
  | left + 1, cs =>
    match closing? '"' cs with
    | some result => some result
    | none =>
      match cs with
      | [] => none
      | '\\' :: cs =>
        match newline? (skipSpaces cs) with
        | some cs => quotedLines left (skipLines left cs)
        | none => do
          let (c, cs) ← escape? cs
          let (s, cs) ← quotedLines left cs
          return (c :: s, cs)
      | c :: rest =>
        match newline? cs with
        | some cs => do
          let (s, cs) ← quotedLines left cs
          return ('\n' :: s, cs)
        | none =>
          if isPlain c then do
            let (s, cs) ← quotedLines left rest
            return (c :: s, cs)
          else none

def literalLines : Nat → List Char → Option (List Char × List Char)
  | 0, _ => none
  | left + 1, cs =>
    match closing? '\'' cs with
    | some result => some result
    | none =>
      match cs with
      | [] => none
      | c :: rest =>
        match newline? cs with
        | some cs => do
          let (s, cs) ← literalLines left cs
          return ('\n' :: s, cs)
        | none =>
          if isPlain c then do
            let (s, cs) ← literalLines left rest
            return (c :: s, cs)
          else none

def skipFirstNewline (cs : List Char) : List Char :=
  (newline? cs).getD cs

def text? : List Char → Option (List Char × List Char)
  | '"' :: '"' :: '"' :: cs => quotedLines (cs.length + 1) (skipFirstNewline cs)
  | '\'' :: '\'' :: '\'' :: cs => literalLines (cs.length + 1) (skipFirstNewline cs)
  | '"' :: cs => quoted (cs.length + 1) cs
  | '\'' :: cs => literal cs
  | _ => none

end Toml

end PrefixCalculus
