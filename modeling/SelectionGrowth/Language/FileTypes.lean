import SelectionGrowth.Settings.Basic

/-!
# File types

The language of a document follows from the extension of its path, and only if
that says nothing, from what the client calls it.

## Main definitions

- `FileTypes` — languages of extensions
- `FileTypes.ofSettings` — the extensions that settings list, met in some order
- `FileTypes.extension?` — the extension of a path
- `FileTypes.resolve` — the language of a document
-/

namespace SelectionGrowth

/-- Languages of extensions. -/
abbrev FileTypes := Table String String

namespace FileTypes

/-- The pairs of extension and language that a list of languages gives. -/
def pairs (languages : List (String × LanguageSettings)) : List (String × String) :=
  languages.flatMap fun entry => entry.2.fileTypes.map fun extension => (extension, entry.1)

/--
The extensions of all configured languages. Of two languages that list one
extension the later counts, in the order in which they happen to be met.
-/
def ofSettings (order : LanguageOrder) (s : EffectiveSettings) : FileTypes :=
  Table.ofList (pairs (s.languages.entriesIn order))

/-- What follows the last dot in the last segment of a path, unless it is empty. -/
def extension? (path : String) : Option String :=
  let name := path.toList.reverse.takeWhile (· ≠ '/')
  if '.' ∈ name then
    match (name.takeWhile (· ≠ '.')).reverse with
    | [] => none
    | extension => some (String.ofList extension)
  else none

def languageOfPath (types : FileTypes) (path : String) : Option String :=
  match extension? path with
  | none => none
  | some extension => types.get? extension

/-- The language of a document: by its path, else as the client calls it. -/
def resolve (types : FileTypes) (path : String) (clientId : Option String) : Option String :=
  (types.languageOfPath path).or clientId

end FileTypes

end SelectionGrowth
