import SelectionGrowth.Server.Params

/-!
# Methods

A message names a method. Some methods are requests and want an answer, the
others are notifications. Of the standard requests that the server does not
offer it still knows what parameters they take.

## Main definitions

- `Method` — what a method name means to the server
- `Method.ofName` — the meaning of a name
-/

namespace SelectionGrowth

/-- The calls that a message can make. -/
inductive CallMethod where
  | opened
  | changed
  | closed
  | expand
  | shrink
  | ranges
deriving DecidableEq

/-- What a method name means to the server. -/
inductive Method where
  | handshake
  | ready
  | shutdown
  | exit
  | call (method : CallMethod)
  | unofferedRequest (accepts : Data → Bool)
  | unofferedNotification
  | unknown

namespace CallMethod

def isRequest : CallMethod → Bool
  | opened | changed | closed => false
  | expand | shrink | ranges => true

/-- The call that parameters describe; none at an address that names no document. -/
def decode? (method : CallMethod) (params : Data) : Option (Option Call) :=
  match method with
  | opened => Params.opened? params
  | changed => Params.changed? params
  | closed => Params.closed? params
  | expand => (Params.selection? params).map fun s => s.map fun (a, range) => .expand a range
  | shrink => (Params.selection? params).map fun s => s.map fun (a, range) => .shrink a range
  | ranges => Params.ranges? params

end CallMethod

namespace Method

/-- Whether a record has all of some fields, each of its shape. -/
def hasFields (fields : List (String × (Data → Bool))) (d : Data) : Bool :=
  match d with
  | .record _ => fields.all fun field => ((d.field? field.1).map field.2).getD false
  | _ => false

def documentField : String × (Data → Bool) :=
  ("textDocument", fun d => (Params.identifier? d).isSome)

def positionField : String × (Data → Bool) :=
  ("position", fun d => (Params.position? d).isSome)

def rangeField : String × (Data → Bool) :=
  ("range", fun d => (Params.range? d).isSome)

def textField (name : String) : String × (Data → Bool) :=
  (name, fun d => d.text?.isSome)

def recordField (name : String) : String × (Data → Bool) :=
  (name, fun d => (Params.record? d).isSome)

def listField (name : String) : String × (Data → Bool) :=
  (name, fun d => d.list?.isSome)

/-- Standard requests that the server does not offer, with the fields they must have. -/
def unofferedRequests : List (List String × List (String × (Data → Bool))) :=
  [(["textDocument/declaration", "textDocument/definition", "textDocument/typeDefinition",
      "textDocument/implementation", "textDocument/documentHighlight", "textDocument/hover",
      "textDocument/moniker", "textDocument/linkedEditingRange", "textDocument/prepareRename",
      "textDocument/prepareCallHierarchy", "textDocument/prepareTypeHierarchy",
      "textDocument/completion", "textDocument/signatureHelp"],
      [documentField, positionField]),
    (["textDocument/documentLink", "textDocument/codeLens", "textDocument/foldingRange",
      "textDocument/documentSymbol", "textDocument/semanticTokens/full",
      "textDocument/documentColor", "textDocument/diagnostic"], [documentField]),
    (["textDocument/semanticTokens/range", "textDocument/inlayHint"],
      [documentField, rangeField]),
    (["textDocument/semanticTokens/full/delta"], [documentField, textField "previousResultId"]),
    (["textDocument/references"], [documentField, positionField, recordField "context"]),
    (["textDocument/rename"], [documentField, positionField, textField "newName"]),
    (["textDocument/codeAction", "textDocument/inlineValue"],
      [documentField, rangeField, recordField "context"]),
    (["textDocument/colorPresentation"], [documentField, rangeField, recordField "color"]),
    (["textDocument/formatting"], [documentField, recordField "options"]),
    (["textDocument/rangeFormatting"], [documentField, rangeField, recordField "options"]),
    (["textDocument/onTypeFormatting"],
      [documentField, positionField, textField "ch", recordField "options"]),
    (["textDocument/willSaveWaitUntil"],
      [documentField, ("reason", fun d => (Params.signed? d).isSome)]),
    (["workspace/symbol"], [textField "query"]),
    (["workspace/diagnostic"], [listField "previousResultIds"]),
    (["workspace/executeCommand"], [textField "command"]),
    (["workspace/willCreateFiles", "workspace/willRenameFiles", "workspace/willDeleteFiles"],
      [listField "files"]),
    (["callHierarchy/incomingCalls", "callHierarchy/outgoingCalls", "typeHierarchy/supertypes",
      "typeHierarchy/subtypes"], [recordField "item"]),
    (["completionItem/resolve"], [textField "label"]),
    (["codeAction/resolve"], [textField "title"]),
    (["codeLens/resolve", "documentLink/resolve"], [rangeField]),
    (["inlayHint/resolve"], [positionField]),
    (["workspaceSymbol/resolve"], [textField "name"])]

/-- Standard notifications that the server takes no notice of. -/
def unofferedNotifications : List String :=
  ["textDocument/willSave", "textDocument/didSave", "notebookDocument/didOpen",
    "notebookDocument/didChange", "notebookDocument/didSave", "notebookDocument/didClose",
    "workspace/didChangeConfiguration", "workspace/didChangeWorkspaceFolders",
    "workspace/didCreateFiles", "workspace/didRenameFiles", "workspace/didDeleteFiles",
    "workspace/didChangeWatchedFiles", "$/cancelRequest"]

def offered : List (String × Method) :=
  [("initialize", handshake), ("initialized", ready), ("shutdown", shutdown),
    ("exit", exit), ("textDocument/didOpen", call .opened),
    ("textDocument/didChange", call .changed), ("textDocument/didClose", call .closed),
    ("selection/expand", call .expand), ("selection/shrink", call .shrink),
    ("textDocument/selectionRange", call .ranges)]

def ofName (name : String) : Method :=
  match Table.find? name offered with
  | some method => method
  | none =>
    match unofferedRequests.find? fun entry => entry.1.contains name with
    | some entry => unofferedRequest (hasFields entry.2)
    | none => if unofferedNotifications.contains name then unofferedNotification else unknown

end Method

end SelectionGrowth
