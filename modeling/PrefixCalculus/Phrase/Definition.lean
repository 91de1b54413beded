import PrefixCalculus.Phrase.Meaning
set_option autoImplicit false

/-!
Definitions of functions, `name(parameters) = body`. The name is bound before the body is read, so the
body may call it; if the body has no meaning the function is put back as it was.
-/

namespace PrefixCalculus

namespace Heading

def isBuiltin (name : String) : Bool :=
  (Operator.ofName? name).isSome || ["if", "sum", "prod", "log"].contains name

def duplicates (before : List String) : List String → List String
  | [] => []
  | p :: ps =>
    if before.contains p then p :: duplicates (before ++ [p]) ps else duplicates (before ++ [p]) ps

def diagnostics (h : Heading) : List Diagnostic :=
  if isBuiltin h.name then [.builtin h.name]
  else (duplicates [] h.params).map .duplicateParameter

end Heading

namespace Environment

def functionNamed? (env : Environment) (name : String) : Option Function :=
  (env.functionId? name).bind env.function?

/-- Let a name find a function again, or nothing if there was none. -/
def putBack (env : Environment) (name : String) (previous : Option Function) : Environment :=
  match previous with
  | some function => (env.define name function.argc function.body).2
  | none => (env.remove? name).getD env

def completeDefinition (env : Environment) (h : Heading) (previous : Option Function)
    (id : FunctionId) (body : Phrase) : Except TextError FunctionId × Environment :=
  let (e, r) := body.meaning ⟨h.params, true⟩ (.start env)
  match r.error? with
  | some error => (.error error, r.env.putBack h.name previous)
  | none => (.ok id, (r.env.define h.name (UInt32.ofNat h.params.length) e).2)

/-- Read a definition and bind its function. A function that has the name already keeps its place. -/
def defineTextBy (C : Combinators) (env : Environment) (text : String) :
    Except TextError FunctionId × Environment :=
  match tokensOf text >>= C.readDefinition with
  | .error e => (.error e, env)
  | .ok (h, body) =>
    match h.diagnostics with
    | d :: ds => (.error (.diagnostics (d :: ds)), env)
    | [] =>
      let previous := env.functionNamed? h.name
      let (id, env) := env.define h.name (UInt32.ofNat h.params.length) Expression.null
      env.completeDefinition h previous id body

def defineText (env : Environment) (text : String) : Except TextError FunctionId × Environment :=
  env.defineTextBy reader text

end Environment

end PrefixCalculus
