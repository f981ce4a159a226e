import SelectionGrowth.Server.Session

/-!
# Messages on the wire

Replies and events as trees of values, in the form in which a client expects
them.

## Main definitions

- `Wire.rangeData`, `Wire.selectionData` — ranges and nested ranges
- `Wire.response?` — the response to a request
- `Wire.unreadable` — the response to what is no message
- `Wire.logNotification` — the notification that tells an event
- `Wire.message?` — the message that a value describes
-/

namespace SelectionGrowth.Wire

def positionData (p : Position) : Data :=
  .record [("line", .int p.line), ("character", .int p.column)]

def rangeData (r : Range) : Data :=
  .record [("start", positionData r.start), ("end", positionData r.stop)]

/-- Nested ranges, each inside its parent. -/
def selectionData : SelectionRange → Data
  | .outermost range => .record [("range", rangeData range)]
  | .within range parent => .record [("range", rangeData range), ("parent", selectionData parent)]

/-- What the server offers: incremental changes of texts, and nested ranges. -/
def capabilitiesData : Data :=
  .record
    [("capabilities", .record
      [("textDocumentSync", .int 2), ("selectionRangeProvider", .bool true)]),
      ("serverInfo", .record [("name", .text "hirogeru"), ("version", .text "0.0.1")])]

/-- The result of a reply; none if the reply is no result. -/
def result? : Reply → Option Data
  | .capabilities => some capabilitiesData
  | .null => some .null
  | .range range => some (rangeData range)
  | .ranges selections => some (.list (selections.map selectionData))
  | _ => none

/-- The code and, for a failure, the wording of an error. -/
def error? : Reply → Option (Int × Option String)
  | .failure failure => some (failure.code, some failure.message)
  | .refusal refusal => some (refusal.code, none)
  | _ => none

def severityCode : Severity → Int
  | .warning => 2
  | .info => 3

/-- The response to the request with an identifier, if the reply is an answer. -/
def response? (id : Data) (reply : Reply) : Option Data :=
  let version : String × Data := ("jsonrpc", .text "2.0")
  match result? reply, error? reply with
  | some result, _ => some (.record [version, ("id", id), ("result", result)])
  | none, some (code, text) =>
    let error : Data := .record [("code", .int code), ("message", .text (text.getD ""))]
    some (.record [version, ("id", id), ("error", error)])
  | none, none => none

/-- The response to what is no message at all; it cannot name a request. -/
def unreadable : Data :=
  .record
    [("jsonrpc", .text "2.0"), ("id", .null),
      ("error", .record [("code", .int (-32700)), ("message", .text "Parse error")])]

/-- The notification that tells an event. -/
def logNotification (event : Event) : Data :=
  .record
    [("jsonrpc", .text "2.0"), ("method", .text "window/logMessage"),
      ("params", .record
        [("type", .int (severityCode event.severity)), ("message", .text event.message)])]

/-- The message that a value describes. A message without an identifier is a notification. -/
def message? (d : Data) : Option Message := do
  let method ← (← d.field? "method").text?
  return ⟨method, d.field? "params", (d.field? "id").isNone⟩

end SelectionGrowth.Wire
