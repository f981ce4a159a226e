import SelectionGrowth.Server.Workspace

/-!
# Message parameters

The parameters of a message arrive as a tree of values. Unknown fields are
ignored; a missing field, or one of the wrong shape, makes the parameters
invalid.

## Main definitions

- `Params.call?` — the call that a message makes
- `Params.Handshake`, `Params.handshake?` — what a client says when it starts

## Design notes

A list may stand in place of a record without optional parts and gives its
fields in order. Lines, columns and lengths are unsigned 32-bit numbers,
versions are signed.
-/

namespace SelectionGrowth.Params

/-- The fields of a record by name, or the items of a list by place. -/
def fields? (names : List String) : Data → Option (List (Option Data))
  | .record fields => some (names.map fun name => Table.find? name fields)
  | .list items => if items.length = names.length then some (items.map some) else none
  | _ => none

def unsigned? : Data → Option Nat :=
  Data.natUpTo? Text.maxCoordinate

def signed? : Data → Option Int
  | .int value =>
    if -(Text.signedLimit32 : Int) ≤ value ∧ value < Text.signedLimit32 then some value else none
  | _ => none

/-- A value that may be missing or empty. -/
def optional? {α : Type} (decode : Data → Option α) : Option Data → Option (Option α)
  | none => some none
  | some .null => some none
  | some d => (decode d).map some

def uri? (d : Data) : Option Uri :=
  d.text?.bind Uri.parse?

/-- A well-formed URI as a document's address; not every URI is one. -/
def address? (d : Data) : Option (Option Url) :=
  match d with
  | .text text => (Uri.parse? text).map fun _ => Url.parse? text
  | _ => none

def position? (d : Data) : Option Position :=
  match fields? ["line", "character"] d with
  | some [some line, some column] => do return ⟨← unsigned? line, ← unsigned? column⟩
  | _ => none

def range? (d : Data) : Option Range :=
  match fields? ["start", "end"] d with
  | some [some start, some stop] => do return ⟨← position? start, ← position? stop⟩
  | _ => none

def identifier? (d : Data) : Option (Option Url) :=
  match fields? ["uri"] d with
  | some [some uri] => address? uri
  | _ => none

def change? (d : Data) : Option Change :=
  match fields? ["range", "rangeLength", "text"] d with
  | some [range, length, some text] => do
    let range ← optional? range? range
    let _ ← optional? unsigned? length
    return ⟨range, ← text.text?⟩
  | _ => none

/-- A token that names a long-running request. -/
def token? : Data → Option Unit
  | .text _ => some ()
  | d => (signed? d).map fun _ => ()

def opened? (d : Data) : Option (Option Call) :=
  match fields? ["textDocument"] d with
  | some [some item] =>
    match fields? ["uri", "languageId", "version", "text"] item with
    | some [some uri, some clientId, some version, some text] => do
      let address ← address? uri
      let clientId ← clientId.text?
      let version ← signed? version
      let text ← text.text?
      return address.map fun a => .opened a clientId ⟨text, version⟩
    | _ => none
  | _ => none

def changed? (d : Data) : Option (Option Call) :=
  match fields? ["textDocument", "contentChanges"] d with
  | some [some item, some changes] =>
    match fields? ["uri", "version"] item with
    | some [some uri, some version] => do
      let address ← address? uri
      let version ← signed? version
      let changes ← (← changes.list?).mapM change?
      return address.map fun a => .changed a version changes
    | _ => none
  | _ => none

def closed? (d : Data) : Option (Option Call) :=
  match fields? ["textDocument"] d with
  | some [some item] => do
    let address ← identifier? item
    return address.map fun a => .closed a
  | _ => none

def selection? (d : Data) : Option (Option (Url × Range)) :=
  match fields? ["textDocument", "range"] d with
  | some [some item, some range] => do
    let address ← identifier? item
    let range ← range? range
    return address.map fun a => (a, range)
  | _ => none

/-- A document and positions in it, possibly with tokens; a list will not do. -/
def ranges? (d : Data) : Option (Option Call) :=
  match d with
  | .record _ => do
    let address ← identifier? (← d.field? "textDocument")
    let positions ← (← (← d.field? "positions").list?).mapM position?
    let _ ← optional? token? (d.field? "workDoneToken")
    let _ ← optional? token? (d.field? "partialResultToken")
    return address.map fun a => .ranges a positions
  | _ => none

-- ════════════════════════════════════════════════════════════════════════
-- The handshake
-- ════════════════════════════════════════════════════════════════════════

/-- What a client says when it starts. -/
structure Handshake where
  folders : Option (List Uri)
  root : Option Uri
  options : Option Data

def folder? (d : Data) : Option Uri :=
  match fields? ["uri", "name"] d with
  | some [some uri, some name] => do
    let _ ← name.text?
    uri? uri
  | _ => none

/-- How much the client wants to be told. -/
def trace? : Data → Option Unit
  | .text level =>
    if level = "off" ∨ level = "messages" ∨ level = "verbose" then some () else none
  | _ => none

/-- The name and version of the client. -/
def client? (d : Data) : Option Unit :=
  match fields? ["name", "version"] d with
  | some [some name, version] => do
    let _ ← name.text?
    let _ ← optional? Data.text? version
    return ()
  | _ => none

/-- A record whose contents do not matter here. -/
def record? : Data → Option Unit
  | .record _ => some ()
  | _ => none

/-- What the client can do: a record of records, one for each area. -/
def capabilities? (d : Data) : Option Unit :=
  match d with
  | .record _ => do
    let _ ← ["workspace", "textDocument", "notebookDocument", "window", "general"].mapM
      fun area => optional? record? (d.field? area)
    return ()
  | _ => none

/-- What a client says when it starts. -/
def handshake? (d : Data) : Option Handshake :=
  match d with
  | .record _ => do
    let _ ← capabilities? (← d.field? "capabilities")
    let _ ← optional? unsigned? (d.field? "processId")
    let _ ← optional? Data.text? (d.field? "rootPath")
    let _ ← optional? Data.text? (d.field? "locale")
    let _ ← optional? trace? (d.field? "trace")
    let _ ← optional? client? (d.field? "clientInfo")
    let _ ← optional? token? (d.field? "workDoneToken")
    let root ← optional? uri? (d.field? "rootUri")
    let folders ← optional? (fun f => f.list?.bind (·.mapM folder?)) (d.field? "workspaceFolders")
    let options := (d.field? "initializationOptions").filter fun
      | .null => false
      | _ => true
    return ⟨folders, root, options⟩
  | _ => none

/--
The folder that the workspace file is looked for in: the first workspace folder
if there is one, otherwise the root, otherwise the current folder. An address
with an empty path names no folder.
-/
def Handshake.rootPath (p : Handshake) (current : String) : Option String :=
  match p.folders with
  | some (first :: _) => first.filePath
  | _ => (p.root.bind Uri.filePath).or (some current)

end SelectionGrowth.Params
