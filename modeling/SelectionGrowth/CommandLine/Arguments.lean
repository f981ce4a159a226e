import SelectionGrowth.CommandLine.Position

/-!
# Command-line arguments

Without a command the program serves a client. The command `expand` prints the
ranges that a selection in a file grows through.

## Main definitions

- `CommandLine.Action` — what the arguments ask for
- `CommandLine.parse` — the action of a list of arguments

## Design notes

An option takes its value from the same argument, after an equals sign, or from
the next argument, which must then not look like an option. An option given
twice is an error, but `--config` may stand both before and after the command,
and the one after it counts. After two dashes no argument is an option.
-/

namespace SelectionGrowth.CommandLine

/-- What the arguments ask for. -/
inductive Action where
  | misuse
  | version
  | help
  | serve (config : Option String)
  | expand (config : Option String) (file start : String) (stop : Option String) (steps : Nat)
deriving DecidableEq

/-- The number of steps after which growth is not stopped by any limit. -/
def unlimitedSteps : Nat := Text.limit64 - 1

/-- Whether an argument looks like an option; a single dash does not. -/
def looksLikeOption (argument : String) : Bool :=
  match argument.toList with
  | '-' :: _ :: _ => true
  | _ => false

/-- An argument that starts with two dashes, as its name and its attached value. -/
def longOption? (argument : String) : Option (String × Option String) :=
  match argument.toList with
  | '-' :: '-' :: rest =>
    let (name, value) := Text.cutAt (· = '=') rest
    some (String.ofList name, value.map String.ofList)
  | _ => none

/-- The value of an option, attached or in the next argument, and the arguments after it. -/
def optionValue? (attached : Option String) (rest : List String) :
    Option (String × List String) :=
  match attached, rest with
  | some value, _ => some (value, rest)
  | none, value :: rest => if looksLikeOption value then none else some (value, rest)
  | none, [] => none

/-- What has been read of the arguments after the command. -/
structure ExpandProgress where
  config : Option String
  steps : Option Nat
  operands : List String

/-- The action once all arguments of the command are read. -/
def ExpandProgress.action (p : ExpandProgress) (outerConfig : Option String) : Action :=
  let config := p.config.or outerConfig
  let steps := p.steps.getD unlimitedSteps
  match p.operands with
  | [file, start] => if file = "" then .misuse else .expand config file start none steps
  | [file, start, stop] =>
    if file = "" then .misuse else .expand config file start (some stop) steps
  | _ => .misuse

/-- What an argument in the place of an option is. -/
inductive Occurrence where
  | config (value : String)
  | steps (value : Nat)
  | help
  | wrong

/-- The option at the head of the arguments, and how many further arguments it takes. -/
def occurrence (argument : String) (rest : List String) : Occurrence × Nat :=
  match longOption? argument with
  | some ("config", attached) =>
    match optionValue? attached rest with
    | some (value, after) =>
      (if value = "" then .wrong else .config value, rest.length - after.length)
    | none => (.wrong, 0)
  | some ("steps", attached) =>
    match optionValue? attached rest with
    | some (value, after) =>
      (match number? unlimitedSteps value.toList with
        | some n => .steps n
        | none => .wrong, rest.length - after.length)
    | none => (.wrong, 0)
  | some ("help", none) => (.help, 0)
  | some _ => (.wrong, 0)
  | none => (if argument.toList.take 2 = ['-', 'h'] then .help else .wrong, 0)

/-- Reads the arguments after the command; `skipped` of them belong to an option before. -/
def parseExpand (outerConfig : Option String) :
    ExpandProgress → (skipped : Nat) → List String → Action
  | p, _, [] => p.action outerConfig
  | p, skipped + 1, _ :: rest => parseExpand outerConfig p skipped rest
  | p, 0, argument :: rest =>
    if argument = "--" then { p with operands := p.operands ++ rest }.action outerConfig
    else if looksLikeOption argument then
      match occurrence argument rest with
      | (.config value, taken) =>
        if p.config.isSome then .misuse
        else parseExpand outerConfig { p with config := some value } taken rest
      | (.steps value, taken) =>
        if p.steps.isSome then .misuse
        else parseExpand outerConfig { p with steps := some value } taken rest
      | (.help, _) => .help
      | (.wrong, _) => .misuse
    else parseExpand outerConfig { p with operands := p.operands ++ [argument] } 0 rest

/-- Reads the arguments up to the command; `skipped` of them belong to an option before. -/
def parseFrom (config : Option String) : (skipped : Nat) → List String → Action
  | _, [] => .serve config
  | skipped + 1, _ :: rest => parseFrom config skipped rest
  | 0, argument :: rest =>
    if argument = "--" then if rest.isEmpty then .serve config else .misuse
    else if looksLikeOption argument then
      if argument = "--version" || argument.toList.take 2 = ['-', 'V'] then .version
      else
        match occurrence argument rest with
        | (.config value, taken) =>
          if config.isSome then .misuse else parseFrom (some value) taken rest
        | (.help, _) => .help
        | _ => .misuse
    else if argument = "expand" then parseExpand config ⟨none, none, []⟩ 0 rest
    else if argument = "help" then
      if rest.isEmpty || rest = ["expand"] || rest = ["help"] then .help else .misuse
    else .misuse

def parse (arguments : List String) : Action :=
  parseFrom none 0 arguments

end SelectionGrowth.CommandLine
