import SelectionGrowth.Failure
import SelectionGrowth.Text.Split

/-!
# Files

Settings and source texts are read from files. All that the library asks of a
file system is a function from paths to texts. A snapshot of some files gives
such a function: a path is resolved name by name, so a file in the place of a
folder is told from a missing file.

## Main definitions

- `FileReader` — the texts at paths
- `joinPath` — a name below a path
- `Contents` — what a path holds
- `Files` — a snapshot, with the folder that relative paths start from
- `Files.read` — the text at a path of a snapshot
-/

namespace SelectionGrowth

/-- The texts at paths. -/
abbrev FileReader := String → Except FileFault String

def joinPath (path name : String) : String :=
  if path = "" then name
  else if path.toList.getLast? = some '/' then path ++ name
  else path ++ "/" ++ name

/-- What a path holds: a folder, or a file whose bytes may not be a text. -/
inductive Contents where
  | folder
  | file (text : Option String)
deriving DecidableEq

/-- A file with given bytes. -/
def Contents.ofBytes (bytes : List UInt8) : Contents :=
  .file (String.fromUTF8? ⟨bytes.toArray⟩)

/-- A snapshot of a file system. Paths are lists of names from the root. -/
structure Files where
  entries : List (List String × Contents)
  current : List String

namespace Files

/-- The names between the slashes of a path. -/
def segments (path : String) : List String :=
  (Text.splitOn (· = '/') path.toList).map String.ofList

/-- What a list of names holds. A folder exists if something in it does. -/
def lookup? (files : Files) (names : List String) : Option Contents :=
  match files.entries.find? fun entry => entry.1 = names with
  | some entry => some entry.2
  | none =>
    if files.entries.any fun entry => names.isPrefixOf entry.1 then some .folder
    else if names.isPrefixOf files.current then some .folder
    else none

/-- Follows a path from a folder, name by name. -/
def follow (files : Files) : (reached : List String) → List String → Except FileFault Contents
  | reached, [] =>
    match files.lookup? reached with
    | some contents => .ok contents
    | none => .error .notFound
  | reached, name :: rest =>
    match files.lookup? reached with
    | none => .error .notFound
    | some (.file _) => .error .notADirectory
    | some .folder =>
      if name = "" ∨ name = "." then files.follow reached rest
      else if name = ".." then files.follow reached.dropLast rest
      else files.follow (reached ++ [name]) rest

def read (files : Files) : FileReader := fun path =>
  if path = "" then .error .notFound
  else
    let start := if path.toList.head? = some '/' then [] else files.current
    match files.follow start (segments path) with
    | .error fault => .error fault
    | .ok .folder => .error .isADirectory
    | .ok (.file none) => .error .notUtf8
    | .ok (.file (some text)) => .ok text

def currentPath (files : Files) : String :=
  "/" ++ "/".intercalate files.current

end Files

end SelectionGrowth
