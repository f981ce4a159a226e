import SelectionGrowth.Files
import SelectionGrowth.Settings.Decode
import SelectionGrowth.Toml.Reader

/-!
# Loading settings

The effective settings are merged from four layers: the built-in settings, the
user file, the workspace file and what the client sends. A layer that cannot be
read is left out, and the events tell what happened to each.

## Main definitions

- `Surroundings` — how files are read, the folders that settings are looked for in, and the order
  in which languages are met
- `Surroundings.userFile` — where the user file is, if there is a folder for it
- `Settings.ofFile` — the layer in a file
- `Settings.load` — the effective settings and the events on the way
-/

namespace SelectionGrowth

/--
How files are read, the current folder, the folders that locate the user file,
and the order in which the languages of settings are met. Neither of the two
folders need be known.
-/
structure Surroundings where
  read : FileReader
  current : String
  configHome : Option String
  home : Option String
  languageOrder : LanguageOrder

def settingsFileName : String := "hirogeru.toml"

/-- The folder that holds all user settings: the one set for it, else a folder below the home. -/
def Surroundings.userFolder (s : Surroundings) : Option String :=
  (s.configHome.filter (· ≠ "")).or (s.home.map (joinPath · ".config"))

/-- The path of the user file, if there is a folder for user settings. -/
def Surroundings.userFile (s : Surroundings) : Option String :=
  s.userFolder.map fun folder => joinPath (joinPath folder "hirogeru") settingsFileName

/-- How much an event matters. -/
inductive Severity where
  | info
  | warning
deriving DecidableEq

/-- Something worth telling the user. -/
structure Event where
  severity : Severity
  message : String
deriving DecidableEq

namespace Settings

/-- The layer in a file. A missing file is no layer. -/
def ofFile (read : FileReader) (path : String) : Except Failure (Option Settings) :=
  match read path with
  | .error .notFound => .ok none
  | .error fault => .error (.file fault)
  | .ok text =>
    match (Toml.read? text).bind (decode? .toml) with
    | some settings => .ok (some settings)
    | none => .error (.config path)

/-- The layer in the settings file of a workspace. -/
def ofWorkspace (read : FileReader) (root : String) : Except Failure (Option Settings) :=
  ofFile read (joinPath root settingsFileName)

/-- The layer in the file that was asked for by name, else in the user file if there is a place
for one. -/
def ofUser (s : Surroundings) (requested : Option String) : Except Failure (Option Settings) :=
  match requested.or s.userFile with
  | some path => ofFile s.read path
  | none => .ok none

/-- The user layer; only a file that was asked for by name is missed. -/
def userLayer (s : Surroundings) (requested : Option String) : Option Settings × List Event :=
  match ofUser s requested, requested with
  | .ok (some settings), _ => (some settings, [⟨.info, "Loaded user config"⟩])
  | .ok none, some path => (none, [⟨.warning, "Config file " ++ path ++ " does not exist"⟩])
  | .ok none, none => (none, [])
  | .error failure, _ =>
    (none, [⟨.warning, "Failed to load user config: " ++ failure.message⟩])

/-- The workspace layer, if there is a workspace. -/
def workspaceLayer (read : FileReader) (root : Option String) : Option Settings × List Event :=
  match root with
  | none => (none, [])
  | some root =>
    match ofWorkspace read root with
    | .ok (some settings) =>
      (some settings, [⟨.info, "Loaded workspace config from " ++ root⟩])
    | .ok none => (none, [])
    | .error failure =>
      (none, [⟨.warning, "Failed to load workspace config: " ++ failure.message⟩])

/-- The layer that a client sends; an empty value is no layer. -/
def clientLayer (options : Option Data) : Option Settings × List Event :=
  match options with
  | none => (none, [])
  | some .null => (none, [])
  | some value =>
    match decode? .json value with
    | some settings => (some settings, [⟨.info, "Parsed initialization options"⟩])
    | none => (none, [⟨.warning, "Failed to parse initialization options"⟩])

/-- The effective settings of all layers, and the events in the order of the layers. -/
def load (s : Surroundings) (requested root : Option String) (options : Option Data) :
    EffectiveSettings × List Event :=
  let user := userLayer s requested
  let workspace := workspaceLayer s.read root
  let client := clientLayer options
  let merged := mergeAll [some builtIn, user.1, workspace.1, client.1]
  ((merged.getD builtIn).effective, user.2 ++ workspace.2 ++ client.2)

end Settings

end SelectionGrowth
