import SelectionGrowth.CommandLine.Arguments
import SelectionGrowth.Language.FileTypes
import SelectionGrowth.Parse
import SelectionGrowth.Selection.Growth
import SelectionGrowth.Settings.Load

/-!
# Running commands

The command `expand` parses a file and prints, one per line, the ranges that a
selection grows through.

## Main definitions

- `CommandLine.expandFile` — the ranges that a selection in a file grows through
- `CommandLine.run` — the output and the exit code of a command
-/

namespace SelectionGrowth

namespace CommandLine

def versionLine : String := "hirogeru 0.0.1"

/-- The printed ranges of the growth of a selection in a parsed document. -/
def growths (document : Document) (tree : SyntaxTree) (groups : SiblingGroups) (range : Range)
    (steps : Nat) : Except Failure (List String) := do
  let current ← document.span range
  tree.growthsUpTo groups (fun span => (document.range span).map renderRange) steps current

/--
The ranges that a selection in a file grows through. The language is decided
before the file is read, and a tree with errors is refused before the range is
looked at.
-/
def expandFile (s : Surroundings) (parser : Parser) (config : Option String) (file : String)
    (range : Range) (steps : Nat) : Except Failure (List String) := do
  let settings := (Settings.load s config (some s.current) none).1
  match (FileTypes.ofSettings s.languageOrder settings).resolve file none with
  | none => .error (.unparseable (.noLanguage file))
  | some language =>
    match s.read file with
    | .error fault => .error (.file fault)
    | .ok text =>
      let document : Document := ⟨text, 0⟩
      let parse ←
        Parse.of Registry.bundled parser language (settings.kindsOf language) none document
      if parse.tree.hasError && !settings.allowErrorTrees then
        .error (.unparseable (.errorsInFile file))
      else growths document parse.tree settings.groups range steps

/-- What a finished command leaves behind. -/
structure Outcome where
  code : Nat
  output : String
  errors : String
deriving DecidableEq

/-- The outcome of `expand`; a fault of the start is reported before one of the end. -/
def runExpand (s : Surroundings) (parser : Parser) (config : Option String) (file start : String)
    (stop : Option String) (steps : Nat) : Outcome :=
  let lines : Except Failure (List String) := do
    let first ← position start
    let last ← match stop with
      | some text => position text
      | none => .ok first
    expandFile s parser config file ⟨first, last⟩ steps
  match lines with
  | .ok lines => ⟨0, String.join (lines.map (· ++ "\n")), ""⟩
  | .error failure => ⟨1, "", "Error: " ++ failure.message ++ "\n"⟩

/--
The outcome of a command. Serving a client that has nothing to say, and asking
for help, leave nothing behind.
-/
def run (s : Surroundings) (parser : Parser) (arguments : List String) : Outcome :=
  match parse arguments with
  | .misuse => ⟨2, "", ""⟩
  | .version => ⟨0, versionLine ++ "\n", ""⟩
  | .help => ⟨0, "", ""⟩
  | .serve _ => ⟨0, "", ""⟩
  | .expand config file start stop steps => runExpand s parser config file start stop steps

end CommandLine

end SelectionGrowth
