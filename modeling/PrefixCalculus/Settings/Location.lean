set_option autoImplicit false

/-!
Where the settings are kept: at a place given outright, or under the folder for settings, or under
the home folder.
-/

namespace PrefixCalculus

namespace Settings

/-- What the surroundings say of the place. -/
structure Surroundings where
  file : Option String
  settingsFolder : Option String
  home : Option String

def join (path part : String) : String :=
  if path.isEmpty || path.endsWith "/" then path ++ part else path ++ "/" ++ part

def Surroundings.base (s : Surroundings) : String :=
  match s.settingsFolder, s.home with
  | some folder, _ => folder
  | none, some home => join home ".config"
  | none, none => ""

def location (s : Surroundings) : String :=
  match s.file with
  | some file => file
  | none => join (join s.base "calckern") "config.toml"

end Settings

end PrefixCalculus
