import PrefixCalculus.Phrase.Token
set_option autoImplicit false

/-!
What can be wrong with a text, and how it is told.
-/

namespace PrefixCalculus

inductive Diagnostic
  /-- No token goes on with the character, or with the end. -/
  | scanning (found : Option Char)
  /-- No phrase goes on with the token, or with the end. -/
  | reading (found : Option Token)
  | argumentCount (name : String) (expected found : Nat)
  /-- A logarithm with neither one nor two arguments. -/
  | logarithmCount (found : Nat)
  /-- A loop whose first argument is no name. -/
  | loopVariable (name : String)
  | shadowedParameter (name : String)
  /-- A parameter by its position, where there are not so many. -/
  | parameterRange (index : UInt32) (count : Nat)
  | unknownFunction (name : String)
  /-- A definition of a name that has a meaning. -/
  | builtin (name : String)
  | duplicateParameter (name : String)
  deriving DecidableEq

namespace Diagnostic

def foundText : Option String → String
  | some s => "'" ++ s ++ "'"
  | none => "end of input"

def message : Diagnostic → String
  | scanning found => "lexing error: found " ++ foundText (found.map fun c => String.ofList [c])
  | reading found => "parse error: found " ++ foundText (found.map Token.text)
  | argumentCount name expected found =>
    s!"`{name}` expects {expected} argument(s), found {found}"
  | logarithmCount found => s!"`log` expects 1 or 2 argument(s), found {found}"
  | loopVariable name => s!"`{name}` expects a loop variable name first"
  | shadowedParameter name => s!"loop variable `{name}` shadows a parameter"
  | parameterRange index count =>
    s!"parameter `_{index}` is out of range for {count} parameter(s)"
  | unknownFunction name => s!"unknown function `{name}`"
  | builtin name => s!"cannot redefine builtin `{name}`"
  | duplicateParameter name => s!"duplicate parameter `{name}`"

end Diagnostic

inductive TextError
  | diagnostics (ds : List Diagnostic)
  /-- Nothing but one call of a name that is no function. -/
  | unknownFunction (name : String)
  deriving DecidableEq

def TextError.message : TextError → String
  | diagnostics ds => "Failed to parse expression: " ++ "; ".intercalate (ds.map Diagnostic.message)
  | unknownFunction name => s!"Unknown function `{name}`"

end PrefixCalculus
